import OctoberHarness.Tokens.LifecycleSteps

/-! What becomes of the tokens along every interleaving of token operations. -/
namespace OctoberHarness.Tokens

open List Option

/-- A login has no credential yet. -/
def Phase.unacquired : Phase → Bool
  | .cleaning .acquire | .revoking _ _ (some .acquire) | .acquiring => true
  | _ => false

theorem Phase.unacquired_revoking (active other : Option Token) (todo rest : List Token) (goal : Option Goal) :
    (revoking active todo goal).unacquired = (revoking other rest goal).unacquired := by
  cases goal with
  | none => rfl
  | some goal => cases goal <;> rfl

/-- Everything that can happen to an operation. -/
inductive Op.Move (op : Op) (store : Store) : Store → Op → Prop where
  | advance {files : Store} {next : Op} (hStep : op.Advance store files next) : Op.Move op store files next
  | acquire (credential : Credential) (hPhase : op.phase = .acquiring) :
      Op.Move op store store { op with credential := some credential, phase := .saving }
  | stop (hRunning : op.phase.finished = false) :
      Op.Move op store store (op.goTo (.stopped op.phase.holds))

/-- What holds of every operation, with the files as they are. -/
structure Op.Sound (store : Store) (op : Op) : Prop where
  view : op.phase.View store op.issued
  kind : ∀ logout ∈ op.phase.ofLogout, logout = op.request.isLogout
  held : ∀ token, op.issued = some token → op.phase.Held store token
  unacquired : op.phase.unacquired = true → op.credential = none
  fresh : op.phase = .removing → op.revoked = []

namespace Op

variable {op next other : Op} {store files : Store}

theorem Sound.of (store : Store) (request : Request) : (Op.of request).Sound store := by
  cases request with
  | save credential newlyIssued =>
    exact ⟨trivial, fun _ h => (some.inj h).symm, fun _ _ => Or.inr (Or.inl rfl), (fun h => by cases h),
      (fun h => by cases h)⟩
  | login newlyIssued =>
    refine ⟨trivial, fun _ h => (some.inj h).symm, fun token hToken => ?_, fun _ => rfl, (fun h => by cases h)⟩
    cases (token_of_issued hToken)
  | logout =>
    refine ⟨trivial, fun _ h => (some.inj h).symm, fun token hToken => ?_, fun _ => rfl, fun _ => rfl⟩
    cases (token_of_issued hToken)
  | retry =>
    refine ⟨trivial, fun _ h => (some.inj h).symm, fun token hToken => ?_, fun _ => rfl, (fun h => by cases h)⟩
    cases (token_of_issued hToken)

theorem Advance.unacquired_of (hStep : op.Advance store files next) (hNext : next.phase.unacquired = true) :
    op.phase.unacquired = true ∧ next.credential = op.credential := by
  refine ⟨?_, by cases hStep <;> rfl⟩
  cases hStep with
  | @begins goal hPhase hFree =>
    rw [hPhase]
    cases goal with
    | acquire => rfl
    | finish | saved => unfold goTo Phase.cleanLocked at hNext; split_ifs at hNext <;> cases hNext
  | @clears active goal phase hPhase hGo =>
    rw [hPhase]
    rcases hGo with rfl | rfl
    · cases goal with
      | none => cases hNext
      | some goal => cases goal <;> first | rfl | cases hNext
    · cases hNext
  | @skips token rest goal hPhase =>
    rw [hPhase, ← hNext]
    exact Phase.unacquired_revoking _ _ _ _ goal
  | revokes hPhase hOther hGo =>
    rcases hGo with rfl | rfl
    · rw [hPhase, ← hNext]
      exact Phase.unacquired_revoking _ _ _ _ _
    · cases hNext
  | unsaved | unjournals =>
    unfold goTo unjournaled at hNext
    split_ifs at hNext <;> cases hNext
  | recovers hPhase hIssued hGo => rcases hGo with rfl | rfl <;> cases hNext
  | notes hPhase =>
    unfold goTo Phase.cleanLocked at hNext
    split_ifs at hNext <;> cases hNext
  | _ => cases hNext

theorem Advance.not_removing (hStep : op.Advance store files next) : next.phase ≠ .removing := by
  intro hNext
  cases hStep with
  | @begins goal hPhase hFree =>
    unfold goTo Phase.cleanLocked at hNext
    split_ifs at hNext
    cases goal <;> cases hNext
  | @clears active goal phase hPhase hGo =>
    rcases hGo with rfl | rfl
    · cases goal with
      | none => cases hNext
      | some goal => cases goal <;> cases hNext
    · cases hNext
  | revokes hPhase hOther hGo | recovers hPhase hOther hGo => rcases hGo with rfl | rfl <;> cases hNext
  | unsaved | unjournals =>
    unfold goTo unjournaled at hNext
    split_ifs at hNext
  | notes hPhase =>
    unfold goTo Phase.cleanLocked at hNext
    split_ifs at hNext
    cases hNext
  | _ => cases hNext

theorem Sound.move (hSound : op.Sound store) (hMove : op.Move store files next) : next.Sound files := by
  cases hMove with
  | advance hStep =>
    refine ⟨hStep.view hSound.view, hStep.kind hSound.kind, fun token hToken => ?_, fun hNext => ?_, fun hNext => ?_⟩
    · rw [hStep.same.2.2] at hToken
      exact hStep.held hSound.view hToken (hSound.held token hToken)
    · obtain ⟨hBefore, hSame⟩ := hStep.unacquired_of hNext
      rw [hSame, hSound.unacquired hBefore]
    · exact absurd hNext hStep.not_removing
  | acquire credential hPhase =>
    refine ⟨trivial, fun logout hLogout => ?_, fun _ _ => Or.inr (Or.inl rfl), (fun h => by cases h), (fun h => by cases h)⟩
    exact hSound.kind logout (by rw [hPhase]; exact hLogout)
  | stop hRunning =>
    refine ⟨trivial, (fun _ h => by cases h), fun token hToken => ?_, (fun h => by cases h), (fun h => by cases h)⟩
    rcases hSound.held token hToken with hRetains | hHolds | hEnded | hStopped
    · exact Or.inl hRetains
    · exact Or.inr (Or.inr (Or.inr (by rw [goTo_phase, hHolds])))
    · rw [hEnded] at hRunning
      cases hRunning
    · rw [hStopped] at hRunning
      cases hRunning

theorem Sound.frame (hSound : other.Sound store) (hView : other.phase.View files other.issued)
    (hRetains : ∀ token, store.Retains token → files.Retains token) : other.Sound files :=
  ⟨hView, hSound.kind, fun token hToken => (hSound.held token hToken).imp_left (hRetains token), hSound.unacquired,
    hSound.fresh⟩

theorem Sound.quiet (hSound : other.Sound store) (hQuiet : store.Quiet files) : other.Sound files :=
  hSound.frame (Phase.view_of_quiet hQuiet hSound.view) fun _ => hQuiet.retains

section

variable (hMove : op.Move store files next)

include hMove

theorem Move.lock : files.lock = store.lock := by
  cases hMove with
  | advance hStep => exact hStep.lock
  | acquire => rfl
  | stop => rfl

theorem Move.enters (hLocked : next.phase.locked = true) :
    op.phase.locked = true ∨ store.lock = none := by
  cases hMove with
  | advance hStep => exact hStep.enters hLocked
  | acquire => cases hLocked
  | stop => cases hLocked

theorem Move.quiet (hUnlocked : op.phase.locked = false) : store.Quiet files := by
  cases hMove with
  | advance hStep => exact hStep.quiet hUnlocked
  | acquire => exact Store.Quiet.refl store
  | stop => exact Store.Quiet.refl store

theorem Move.retains (hView : op.phase.View store op.issued) {token : Token}
    (hRetains : store.Retains token) : files.Retains token := by
  cases hMove with
  | advance hStep => exact hStep.retains hView hRetains
  | acquire => exact hRetains
  | stop => exact hRetains

end

end Op

namespace State

/-- Everything that can happen. -/
inductive Move (s : State) : State → Prop where
  | call (request : Request) : Move s { s with ops := s.ops ++ [Op.of request] }
  | move {index : Nat} {op next : Op} {files : Store} (hOp : s.ops[index]? = some op)
      (hMove : op.Move s.store files next) : Move s (s.put index files next)

theorem step_cases {s next : State} {event : Event} (hStep : s.step event = some next) : s.Move next := by
  cases event with
  | «begin» request =>
    obtain rfl := some.inj hStep
    exact .call request
  | acquired index credential =>
    unfold step acquired at hStep
    cases hOp : s.ops[index]? with
    | none => simp [hOp] at hStep
    | some op =>
      cases hPhase : op.phase with simp [hOp, Op.acquired, hPhase] at hStep
      | acquiring => exact hStep ▸ .move hOp (.acquire credential hPhase)
  | advance index outcome =>
    unfold step advance at hStep
    cases hOp : s.ops[index]? with
    | none => simp [hOp] at hStep
    | some op =>
      simp only [hOp, map_eq_some_iff] at hStep
      obtain ⟨made, hMade, rfl⟩ := hStep
      exact .move hOp (.advance (Op.advance_cases hMade))
  | stop index =>
    unfold step stop at hStep
    cases hOp : s.ops[index]? with
    | none => simp [hOp] at hStep
    | some op =>
      cases hRunning : op.phase.finished with simp [hOp, hRunning] at hStep
      | false => exact hStep ▸ .move hOp (.stop hRunning)

variable {s next : State}

variable {other : Op} {j : Nat}

theorem put_ops {index : Nat} {op made : Op} {files : Store} (hOp : s.ops[index]? = some op)
    (hOther : (s.put index files made).ops[j]? = some other) :
    j = index ∧ other = made ∨ j ≠ index ∧ s.ops[j]? = some other := by
  have hLength : index < s.ops.length := (List.getElem?_eq_some_iff.mp hOp).1
  simp only [put, getElem?_set] at hOther
  split_ifs at hOther with hSame
  · exact Or.inl ⟨hSame.symm, (some.inj hOther).symm⟩
  · exact Or.inr ⟨fun h => hSame h.symm, hOther⟩

theorem call_ops {made : Op} (hOther : (s.ops ++ [made])[j]? = some other) :
    s.ops[j]? = some other ∨ j = s.ops.length ∧ other = made := by
  rw [getElem?_append] at hOther
  split_ifs at hOther with hOld
  · exact Or.inl hOther
  · obtain ⟨hIndex, hMade⟩ := List.getElem?_eq_some_iff.mp hOther
    simp only [length_singleton] at hIndex
    have hLast : j - s.ops.length = 0 := by omega
    exact Or.inr ⟨by omega, by simpa [hLast] using hMade.symm⟩

theorem quiet_put (s : State) (index : Nat) (files : Store) (made : Op) : files.Quiet (s.put index files made).store :=
  ⟨rfl, rfl, Subset.refl _, Subset.refl _⟩

/-- One transaction at a time, and every operation sound. -/
structure Sound (s : State) : Prop where
  lock : ∀ (index : Nat) (op : Op), s.ops[index]? = some op → op.phase.locked = true → s.store.lock = some index
  each : ∀ (index : Nat) (op : Op), s.ops[index]? = some op → op.Sound s.store

theorem Sound.unlocked (hSound : s.Sound) {index : Nat} {op : Op} (hOp : s.ops[index]? = some op)
    (hOther : s.ops[j]? = some other) (hNe : j ≠ index) (hLocked : op.phase.locked = true) :
    other.phase.locked = false := by
  cases hBoth : other.phase.locked with
  | false => rfl
  | true =>
    have hLock := (hSound.lock j other hOther hBoth).symm.trans (hSound.lock index op hOp hLocked)
    exact absurd (some.inj hLock) hNe

theorem Sound.move (hSound : s.Sound) (hMove : s.Move next) : next.Sound := by
  cases hMove with
  | call request =>
    refine ⟨fun index op hOp hLocked => ?_, fun index op hOp => ?_⟩
    · rcases call_ops hOp with hOld | ⟨-, rfl⟩
      · exact hSound.lock index op hOld hLocked
      · cases request <;> cases hLocked
    · rcases call_ops hOp with hOld | ⟨-, rfl⟩
      · exact hSound.each index op hOld
      · exact Op.Sound.of s.store request
  | @move index op made files hOp hMove =>
    have hView := (hSound.each index op hOp).view
    refine ⟨fun j other hOther hLocked => ?_, fun j other hOther => ?_⟩
    · rcases put_ops hOp hOther with ⟨rfl, rfl⟩ | ⟨hNe, hOld⟩
      · simp [put, hLocked]
      · have hLock := hSound.lock j other hOld hLocked
        have hMade : made.phase.locked = false := by
          cases hBoth : made.phase.locked with
          | false => rfl
          | true =>
            rcases hMove.enters hBoth with hOwn | hFree
            · rw [hSound.unlocked hOp hOld hNe hOwn] at hLocked
              cases hLocked
            · rw [hFree] at hLock
              cases hLock
        have hIndex : some j ≠ some index := fun h => hNe (some.inj h)
        simp [put, hMade, hMove.lock, hLock, hNe]
    · apply Op.Sound.quiet _ (quiet_put s index files made)
      rcases put_ops hOp hOther with ⟨rfl, rfl⟩ | ⟨hNe, hOld⟩
      · exact (hSound.each _ op hOp).move hMove
      · have hOther := hSound.each j other hOld
        cases hLocked : op.phase.locked with
        | false => exact hOther.quiet (hMove.quiet hLocked)
        | true =>
          exact hOther.frame (Phase.view_of_unlocked (hSound.unlocked hOp hOld hNe hLocked))
            fun token => hMove.retains hView

end State

namespace Phase

/-- The token of a save is not in the journal yet. -/
def early : Phase → Bool
  | .saving | .journaling _ => true
  | _ => false

/-- The token of a save is not stored. -/
def unsaved : Phase → Bool
  | .saving | .journaling _ | .committing | .recovering | .filing => true
  | _ => false

/-- A save can still write its token. -/
def coming : Phase → Bool
  | .saving | .journaling _ | .committing => true
  | _ => false

def succeeded : Phase → Bool
  | .leaving result | .ended result => result.succeeded
  | _ => false

variable {phase : Phase}

theorem coming_of_early (hEarly : phase.early = true) : phase.coming = true := by
  cases phase with
  | saving | journaling => rfl
  | _ => cases hEarly

theorem unsaved_of_coming (hComing : phase.coming = true) : phase.unsaved = true := by
  cases phase with
  | saving | journaling | committing => rfl
  | _ => cases hComing

theorem early_of_unlocked (hComing : phase.coming = true) (hUnlocked : phase.locked = false) :
    phase.early = true := by
  cases phase with
  | saving | journaling => rfl
  | committing => cases hUnlocked
  | _ => cases hComing

theorem unsaved_cleaned (goal : Option Goal) : (cleaned goal).unsaved = false := by
  cases goal with
  | none => rfl
  | some goal => cases goal <;> rfl

theorem unsaved_cleanLocked (active : Option Token) (tokens : List Token) (goal : Option Goal) :
    (cleanLocked active tokens goal).unsaved = false := by
  unfold cleanLocked
  split_ifs
  · exact unsaved_cleaned goal
  · rfl

end Phase

namespace Op

variable {op next : Op} {store files : Store} {token : Token}

theorem Sound.token_of_move (hSound : op.Sound store) (hMove : op.Move store files next)
    (hToken : op.token = some token) : next.token = some token := by
  cases hMove with
  | advance hStep => exact hStep.same.2.1.trans hToken
  | acquire credential hPhase =>
    have hNone := hSound.unacquired (by rw [hPhase]; rfl)
    rw [Op.token, hNone] at hToken
    cases hToken
  | stop => exact hToken

theorem Move.stored (hMove : op.Move store files next) (hToken : files.token = some token) :
    store.token = some token ∨ op.phase = .committing ∧ op.token = some token := by
  cases hMove with
  | acquire | stop => exact Or.inl hToken
  | advance hStep =>
    cases hStep with
    | commits outcome hPhase =>
      rcases Store.write_token hToken with hSaved | ⟨-, hKept⟩
      · exact Or.inr ⟨hPhase, hSaved⟩
      · exact Or.inl hKept
    | deletes outcome hPhase =>
      rcases Store.write_token hToken with hNone | ⟨-, hKept⟩
      · cases hNone
      · exact Or.inl hKept
    | unjournals hPhase hNext | unnoted hPhase hNext => rcases hNext with rfl | rfl <;> exact Or.inl hToken
    | _ => exact Or.inl hToken

theorem journal_save {previous : Option Token} (hPrevious : previous = store.token)
    (hToken : token ∈ store.journal ++ previous.toList ++ op.issued.toList) :
    token ∈ store.journal ∨ store.token = some token ∨ (Phase.journaling previous).early = true ∧ op.token = some token := by
  rcases mem_append.mp hToken with hOld | hIssued
  · rcases mem_append.mp hOld with hJournal | hStored
    · exact Or.inl hJournal
    · exact Or.inr (Or.inl (hPrevious ▸ Option.mem_toList.mp hStored))
  · exact Or.inr (Or.inr ⟨rfl, token_of_issued (Option.mem_toList.mp hIssued)⟩)

theorem journal_logout {active : Option Token} {saves : Prop} (hActive : active = store.token)
    (hToken : token ∈ store.journal ++ active.toList) : token ∈ store.journal ∨ store.token = some token ∨ saves := by
  rcases mem_append.mp hToken with hJournal | hStored
  · exact Or.inl hJournal
  · exact Or.inr (Or.inl (hActive ▸ Option.mem_toList.mp hStored))

theorem Sound.journal (hSound : op.Sound store) (hMove : op.Move store files next) (hToken : token ∈ files.journal) :
    token ∈ store.journal ∨ store.token = some token ∨ op.phase.early = true ∧ op.token = some token := by
  cases hMove with
  | acquire | stop => exact Or.inl hToken
  | advance hStep =>
    have hView := hSound.view
    cases hStep with
    | clears => cases Store.mem_writeJournal.mp hToken
    | journals hPhase =>
      rw [hPhase] at hView ⊢
      exact journal_save hView (Store.mem_writeJournal.mp hToken)
    | unjournals hPhase hNext =>
      rw [hPhase] at hView ⊢
      rcases hNext with rfl | rfl
      · exact Or.inl hToken
      · exact journal_save hView (Store.mem_writeJournal.mp hToken)
    | notes hPhase =>
      rw [hPhase] at hView
      exact journal_logout hView (Store.mem_writeJournal.mp hToken)
    | unnoted hPhase hNext =>
      rw [hPhase] at hView
      rcases hNext with rfl | rfl
      · exact Or.inl hToken
      · exact journal_logout hView (Store.mem_writeJournal.mp hToken)
    | commits outcome | deletes outcome => exact Or.inl ((store.write_journal _ outcome) ▸ hToken)
    | _ => exact Or.inl hToken

/-- What an operation revokes is in the journal, stored only if it is a logout
that goes on, or its own and not saved. -/
theorem Sound.revoked (hSound : op.Sound store) (hMove : op.Move store files next) (hToken : token ∈ next.revoked) :
    token ∈ op.revoked ∨ files.token = store.token ∧
      (token ∈ store.journal ∧ op.phase.locked = true ∧
          (store.token = some token → op.request.isLogout = true ∧ next.phase.succeeded = false) ∨
        op.phase = .recovering ∧ op.token = some token) := by
  cases hMove with
  | acquire | stop => exact Or.inl hToken
  | advance hStep =>
    cases hStep with
    | @revokes active head rest goal phase hPhase hOther hNext =>
      rcases mem_cons.mp hToken with rfl | hOld
      · have hView := hSound.view
        have hKind := hSound.kind
        rw [hPhase] at hView hKind
        refine Or.inr ⟨rfl, Or.inl ⟨hView.1 mem_cons_self, by rw [hPhase]; rfl, fun hStored => ?_⟩⟩
        cases goal with
        | none =>
          refine ⟨(hKind true rfl).symm, ?_⟩
          rcases hNext with rfl | rfl <;> rfl
        | some goal =>
          have hActive : active = store.token := hView.2.2
          exact absurd (hActive.trans hStored).symm hOther
      · exact Or.inl hOld
    | recovers hPhase hIssued hNext =>
      rcases mem_cons.mp hToken with rfl | hOld
      · exact Or.inr ⟨rfl, Or.inr ⟨hPhase, token_of_issued hIssued⟩⟩
      · exact Or.inl hOld
    | _ => exact Or.inl hToken

theorem Advance.unsaved_of (hStep : op.Advance store files next) (hNext : next.phase.unsaved = true) :
    op.phase.unsaved = true ∧ op.phase ≠ .committing := by
  cases hStep with
  | saves hPhase | unsaved hPhase | journals hPhase | unjournals hPhase | unrecovered hPhase =>
    rw [hPhase]
    exact ⟨rfl, fun h => by cases h⟩
  | recovers hPhase =>
    rw [hPhase]
    exact ⟨rfl, fun h => by cases h⟩
  | begins | notes => simp [Phase.unsaved_cleanLocked] at hNext
  | clears hPhase hGo =>
    rcases hGo with rfl | rfl
    · simp [Phase.unsaved_cleaned] at hNext
    · cases hNext
  | revokes hPhase hOther hGo => rcases hGo with rfl | rfl <;> cases hNext
  | _ => cases hNext

theorem Advance.coming_of (hStep : op.Advance store files next) (hNext : next.phase.coming = true) :
    op.phase.early = true ∧ (next.phase.early = true → files = store) := by
  have hBefore := hStep.unsaved_of (Phase.unsaved_of_coming hNext)
  cases hStep with
  | saves hPhase =>
    rw [hPhase]
    exact ⟨rfl, fun _ => rfl⟩
  | journals hPhase =>
    rw [hPhase]
    exact ⟨rfl, fun h => by cases h⟩
  | unsaved | unjournals =>
    unfold goTo unjournaled at hNext
    split_ifs at hNext <;> cases hNext
  | begins hPhase | clears hPhase | revokes hPhase | notes hPhase => simp [hPhase, Phase.unsaved] at hBefore
  | recovers hPhase hIssued hGo => rcases hGo with rfl | rfl <;> cases hNext
  | _ => cases hNext

theorem goal_of_logout {active : Option Token} {todo : List Token} {goal : Option Goal}
    (hPhase : op.phase = .revoking active todo goal) (hLogout : op.request.isLogout = true)
    (hKind : ∀ logout ∈ op.phase.ofLogout, logout = op.request.isLogout) : goal = none := by
  rw [hPhase, hLogout] at hKind
  cases goal with
  | none => rfl
  | some goal => cases hKind false rfl

theorem Advance.succeeds (hStep : op.Advance store files next)
    (hKind : ∀ logout ∈ op.phase.ofLogout, logout = op.request.isLogout) (hLogout : op.request.isLogout = true)
    (hNext : next.phase.succeeded = true) :
    op.phase.succeeded = true ∨ op.phase = .removing ∨ files.token = none := by
  cases hStep with
  | absent hPhase => exact Or.inr (Or.inl hPhase)
  | ends hPhase => exact Or.inl (by rw [hPhase]; exact hNext)
  | deletes outcome hPhase =>
    cases outcome with
    | ok => exact Or.inr (Or.inr rfl)
    | failed | late | emptied | torn => cases hNext
  | clears hPhase hGo =>
    obtain rfl := goal_of_logout hPhase hLogout hKind
    rcases hGo with rfl | rfl <;> cases hNext
  | sticks hPhase =>
    obtain rfl := goal_of_logout hPhase hLogout hKind
    cases hNext
  | revokes hPhase hOther hGo =>
    obtain rfl := goal_of_logout hPhase hLogout hKind
    rcases hGo with rfl | rfl <;> cases hNext
  | notes =>
    unfold goTo Phase.cleanLocked at hNext
    split_ifs at hNext <;> cases hNext
  | begins hPhase | shut hPhase | unsaved hPhase | unjournals hPhase | recovers hPhase | unacquired hPhase
  | files hPhase =>
    rw [hPhase, hLogout] at hKind
    cases hKind false rfl
  | _ => cases hNext

end Op

namespace State

variable {s next : State} {start : Store} {token : Token}

/-- The token was there at the start, or has been handed over since. -/
def Known (start : Store) (s : State) (token : Token) : Prop :=
  start.token = some token ∨ token ∈ start.journal ∨ ∃ (index : Nat) (op : Op), s.ops[index]? = some op ∧ op.token = some token

/-- The token was handed over once at most: to one operation, or before the
start. -/
structure Once (start : Store) (s : State) (token : Token) : Prop where
  single : ∀ (i j : Nat) (op other : Op), s.ops[i]? = some op → s.ops[j]? = some other →
    op.token = some token → other.token = some token → i = j
  fresh : start.token = some token ∨ token ∈ start.journal →
    ∀ (index : Nat) (op : Op), s.ops[index]? = some op → op.token ≠ some token

theorem Move.later (hMove : s.Move next) (hSound : s.Sound) {index : Nat} {op : Op} (hOp : s.ops[index]? = some op) :
    ∃ after, next.ops[index]? = some after ∧ ∀ token, op.token = some token → after.token = some token := by
  have hLength := (List.getElem?_eq_some_iff.mp hOp).1
  cases hMove with
  | call request => exact ⟨op, (getElem?_append_left hLength).trans hOp, fun _ h => h⟩
  | @move j mover made files hMover hMove =>
    by_cases hSame : j = index
    · subst hSame
      obtain rfl := some.inj (hMover.symm.trans hOp)
      exact ⟨made, by simp [put, hLength], fun _ => (hSound.each j mover hMover).token_of_move hMove⟩
    · exact ⟨op, by simp [put, hSame, hOp], fun _ h => h⟩

theorem Known.later (hKnown : s.Known start token) (hMove : s.Move next) (hSound : s.Sound) : next.Known start token := by
  rcases hKnown with hStored | hJournal | ⟨index, op, hOp, hToken⟩
  · exact Or.inl hStored
  · exact Or.inr (Or.inl hJournal)
  · obtain ⟨after, hAfter, hKeeps⟩ := hMove.later hSound hOp
    exact Or.inr (Or.inr ⟨index, after, hAfter, hKeeps token hToken⟩)

theorem Once.before (hOnce : next.Once start token) (hMove : s.Move next) (hSound : s.Sound) : s.Once start token := by
  refine ⟨fun i j op other hOp hOther hToken hSame => ?_, fun hStart index op hOp hToken => ?_⟩
  · obtain ⟨after, hAfter, hKeeps⟩ := hMove.later hSound hOp
    obtain ⟨also, hAlso, hKeepsToo⟩ := hMove.later hSound hOther
    exact hOnce.single i j after also hAfter hAlso (hKeeps token hToken) (hKeepsToo token hSame)
  · obtain ⟨after, hAfter, hKeeps⟩ := hMove.later hSound hOp
    exact hOnce.fresh hStart index after hAfter (hKeeps token hToken)

theorem Once.unknown (hOnce : next.Once start token) (hMove : s.Move next) (hSound : s.Sound) {index : Nat} {made : Op}
    (hMade : next.ops[index]? = some made) (hToken : made.token = some token)
    (hOld : ∀ op, s.ops[index]? = some op → op.token ≠ some token) : ¬ s.Known start token := by
  rintro (hStored | hJournal | ⟨j, op, hOp, hOwn⟩)
  · exact hOnce.fresh (Or.inl hStored) index made hMade hToken
  · exact hOnce.fresh (Or.inr hJournal) index made hMade hToken
  · obtain ⟨after, hAfter, hKeeps⟩ := hMove.later hSound hOp
    obtain rfl := hOnce.single j index after made hAfter hMade (hKeeps token hOwn) hToken
    exact hOld op hOp hOwn

/-- Where the tokens handed over once are, and are not. -/
structure Clean (start : Store) (s : State) : Prop where
  stored : ∀ token, s.store.token = some token → s.Known start token
  journal : ∀ token ∈ s.store.journal, s.Known start token
  revoked : ∀ (index : Nat) (op : Op), s.ops[index]? = some op → ∀ token ∈ op.revoked, s.Known start token
  unsaved : ∀ token, s.Once start token → ∀ (index : Nat) (op : Op), s.ops[index]? = some op →
    op.token = some token → op.phase.unsaved = true → s.store.token ≠ some token
  unjournaled : ∀ token, s.Once start token → ∀ (index : Nat) (op : Op), s.ops[index]? = some op →
    op.token = some token → op.phase.early = true → token ∉ s.store.journal
  unrevoked : ∀ token, s.Once start token → ∀ (index : Nat) (op : Op), s.ops[index]? = some op →
    op.token = some token → op.phase.coming = true →
    ∀ (j : Nat) (other : Op), s.ops[j]? = some other → token ∉ other.revoked
  spared : ∀ token, s.Once start token → ∀ (index : Nat) (op : Op), s.ops[index]? = some op →
    token ∈ op.revoked → s.store.token = some token → op.request.isLogout = true ∧ op.phase.succeeded = false

theorem Clean.unheard (hClean : s.Clean start) (hUnknown : ¬ s.Known start token) :
    s.store.token ≠ some token ∧ token ∉ s.store.journal ∧
      ∀ (j : Nat) (other : Op), s.ops[j]? = some other → token ∉ other.revoked :=
  ⟨fun h => hUnknown (hClean.stored token h), fun h => hUnknown (hClean.journal token h),
    fun j other hOther h => hUnknown (hClean.revoked j other hOther token h)⟩

theorem Clean.call (hClean : s.Clean start) (hSound : s.Sound) (request : Request) :
    ({ s with ops := s.ops ++ [Op.of request] } : State).Clean start := by
  have hMove : s.Move { s with ops := s.ops ++ [Op.of request] } := .call request
  have hRevoked : (Op.of request).revoked = [] := by cases request <;> rfl
  -- A new operation comes with a token that nothing knows.
  have hNew : ∀ {token}, Once start { s with ops := s.ops ++ [Op.of request] } token →
      (Op.of request).token = some token → ¬ s.Known start token := fun hOnce hToken =>
    hOnce.unknown hMove hSound (getElem?_concat_length) hToken fun op hOp => by simp at hOp
  have hSpared : ∀ {token}, ∀ (index : Nat) (op : Op), (s.ops ++ [Op.of request])[index]? = some op →
      token ∈ op.revoked → s.ops[index]? = some op := by
    intro token index op hOp hToken
    rcases call_ops hOp with hOld | ⟨-, rfl⟩
    · exact hOld
    · rw [hRevoked] at hToken
      cases hToken
  constructor
  case stored => exact fun token hToken => (hClean.stored token hToken).later hMove hSound
  case journal => exact fun token hToken => (hClean.journal token hToken).later hMove hSound
  case revoked =>
      exact fun index op hOp token hToken =>
        (hClean.revoked index op (hSpared index op hOp hToken) token hToken).later hMove hSound
  case unsaved =>
      intro token hOnce index op hOp hToken hPhase
      rcases call_ops hOp with hOld | ⟨-, rfl⟩
      · exact hClean.unsaved token (hOnce.before hMove hSound) index op hOld hToken hPhase
      · exact (hClean.unheard (hNew hOnce hToken)).1
  case unjournaled =>
      intro token hOnce index op hOp hToken hPhase
      rcases call_ops hOp with hOld | ⟨-, rfl⟩
      · exact hClean.unjournaled token (hOnce.before hMove hSound) index op hOld hToken hPhase
      · exact (hClean.unheard (hNew hOnce hToken)).2.1
  case unrevoked =>
      intro token hOnce index op hOp hToken hPhase j other hOther hMarked
      have hAlso := hSpared j other hOther hMarked
      rcases call_ops hOp with hOld | ⟨-, rfl⟩
      · exact hClean.unrevoked token (hOnce.before hMove hSound) index op hOld hToken hPhase j other hAlso hMarked
      · exact (hClean.unheard (hNew hOnce hToken)).2.2 j other hAlso hMarked
  case spared =>
      intro token hOnce index op hOp hToken hStored
      exact hClean.spared token (hOnce.before hMove hSound) index op (hSpared index op hOp hToken) hToken hStored

section Move

variable {index : Nat} {op made : Op} {files : Store}

theorem put_self (hOp : s.ops[index]? = some op) : (s.put index files made).ops[index]? = some made := by
  have hLength := (List.getElem?_eq_some_iff.mp hOp).1
  simp [put, hLength]

theorem Once.acquired (hOnce : (s.put index s.store made).Once start token) (hSound : s.Sound)
    (hOp : s.ops[index]? = some op) (hMove : op.Move s.store s.store made) (hPhase : op.phase = .acquiring)
    (hToken : made.token = some token) : ¬ s.Known start token := by
  refine hOnce.unknown (.move hOp hMove) hSound (put_self hOp) hToken fun old hOld hOwn => ?_
  obtain rfl := some.inj (hOp.symm.trans hOld)
  have hNone := (hSound.each index op hOp).unacquired (by rw [hPhase]; rfl)
  rw [Op.token, hNone] at hOwn
  cases hOwn

theorem Once.same (hOnce : (s.put index files made).Once start token) (hSound : s.Sound)
    (hOp : s.ops[index]? = some op) (hMove : op.Move s.store files made) (hOwn : op.token = some token) {j : Nat}
    {other : Op} (hOther : (s.put index files made).ops[j]? = some other) (hToken : other.token = some token) :
    j = index :=
  hOnce.single j index other made hOther (put_self hOp) hToken ((hSound.each index op hOp).token_of_move hMove hOwn)

theorem Clean.known_put (hClean : s.Clean start) (hSound : s.Sound) (hOp : s.ops[index]? = some op)
    (hMove : op.Move s.store files made) :
    (∀ token, files.token = some token → (s.put index files made).Known start token) ∧
      (∀ token ∈ files.journal, (s.put index files made).Known start token) ∧
      ∀ token ∈ made.revoked, (s.put index files made).Known start token := by
  have hState : s.Move (s.put index files made) := .move hOp hMove
  have hOwn : ∀ token, op.token = some token → s.Known start token := fun token hToken =>
    Or.inr (Or.inr ⟨index, op, hOp, hToken⟩)
  refine ⟨fun token hToken => ?_, fun token hToken => ?_, fun token hToken => ?_⟩
  · rcases hMove.stored hToken with hStored | ⟨-, hSaved⟩
    · exact (hClean.stored token hStored).later hState hSound
    · exact (hOwn token hSaved).later hState hSound
  · rcases (hSound.each index op hOp).journal hMove hToken with hJournal | hStored | ⟨-, hSaved⟩
    · exact (hClean.journal token hJournal).later hState hSound
    · exact (hClean.stored token hStored).later hState hSound
    · exact (hOwn token hSaved).later hState hSound
  · rcases (hSound.each index op hOp).revoked hMove hToken with hOld | ⟨-, ⟨hJournal, -, -⟩ | ⟨-, hSaved⟩⟩
    · exact (hClean.revoked index op hOp token hOld).later hState hSound
    · exact (hClean.journal token hJournal).later hState hSound
    · exact (hOwn token hSaved).later hState hSound

section

variable {j : Nat} {other : Op} (hClean : s.Clean start) (hSound : s.Sound) (hOp : s.ops[index]? = some op)
    (hMove : op.Move s.store files made) (hOnce : (s.put index files made).Once start token)
    (hOther : (s.put index files made).ops[j]? = some other)

include hClean hSound hOp hMove hOnce hOther

theorem Clean.unsaved_put (hToken : other.token = some token) (hPhase : other.phase.unsaved = true)
    : files.token ≠ some token := by
  intro hStored
  have hBefore := hOnce.before (.move hOp hMove) hSound
  rcases put_ops hOp hOther with ⟨rfl, rfl⟩ | ⟨hNe, hOld⟩
  · cases hMove with
    | advance hStep =>
      have hOwn := hStep.same.2.1.symm.trans hToken
      obtain ⟨hUnsaved, hNotCommitting⟩ := hStep.unsaved_of hPhase
      rcases Op.Move.stored (.advance hStep) hStored with hKept | ⟨hCommitting, -⟩
      · exact hClean.unsaved token hBefore _ op hOp hOwn hUnsaved hKept
      · exact hNotCommitting hCommitting
    | acquire credential hAcquiring =>
      exact hOnce.acquired hSound hOp (.acquire credential hAcquiring) hAcquiring hToken (hClean.stored token hStored)
    | stop => cases hPhase
  · rcases hMove.stored hStored with hKept | ⟨-, hSaved⟩
    · exact hClean.unsaved token hBefore j other hOld hToken hPhase hKept
    · exact hNe (hOnce.same hSound hOp hMove hSaved hOther hToken)

theorem Clean.unjournaled_put (hToken : other.token = some token) (hPhase : other.phase.early = true)
    : token ∉ files.journal := by
  intro hJournal
  have hBefore := hOnce.before (.move hOp hMove) hSound
  rcases put_ops hOp hOther with ⟨rfl, rfl⟩ | ⟨hNe, hOld⟩
  · cases hMove with
    | advance hStep =>
      obtain ⟨hEarly, hSame⟩ := hStep.coming_of (Phase.coming_of_early hPhase)
      rw [hSame hPhase] at hJournal
      exact hClean.unjournaled token hBefore _ op hOp (hStep.same.2.1.symm.trans hToken) hEarly hJournal
    | acquire credential hAcquiring =>
      exact hOnce.acquired hSound hOp (.acquire credential hAcquiring) hAcquiring hToken (hClean.journal token hJournal)
    | stop => cases hPhase
  · rcases (hSound.each index op hOp).journal hMove hJournal with hKept | hStored | ⟨-, hSaved⟩
    · exact hClean.unjournaled token hBefore j other hOld hToken hPhase hKept
    · exact hClean.unsaved token hBefore j other hOld hToken (Phase.unsaved_of_coming (Phase.coming_of_early hPhase)) hStored
    · exact hNe (hOnce.same hSound hOp hMove hSaved hOther hToken)

theorem Clean.unrevoked_put (hToken : other.token = some token) (hPhase : other.phase.coming = true) : token ∉ made.revoked ∧
      ∀ (k : Nat) (third : Op), s.ops[k]? = some third → token ∉ third.revoked := by
  have hBefore := hOnce.before (.move hOp hMove) hSound
  rcases put_ops hOp hOther with ⟨rfl, rfl⟩ | ⟨hNe, hOld⟩
  · cases hMove with
    | advance hStep =>
      have hOwn := hStep.same.2.1.symm.trans hToken
      obtain ⟨hEarly, -⟩ := hStep.coming_of hPhase
      have hOthers := hClean.unrevoked token hBefore _ op hOp hOwn (Phase.coming_of_early hEarly)
      refine ⟨fun hMarked => ?_, hOthers⟩
      rcases (hSound.each _ op hOp).revoked (.advance hStep) hMarked with hAlready | ⟨-, ⟨hJournal, -, -⟩ | ⟨hRecovering, -⟩⟩
      · exact hOthers _ op hOp hAlready
      · exact hClean.unjournaled token hBefore _ op hOp hOwn hEarly hJournal
      · rw [hRecovering] at hEarly
        cases hEarly
    | acquire credential hAcquiring =>
      have hUnknown := hOnce.acquired hSound hOp (.acquire credential hAcquiring) hAcquiring hToken
      exact ⟨(hClean.unheard hUnknown).2.2 _ op hOp, (hClean.unheard hUnknown).2.2⟩
    | stop => cases hPhase
  · have hOthers := hClean.unrevoked token hBefore j other hOld hToken hPhase
    refine ⟨fun hMarked => ?_, hOthers⟩
    rcases (hSound.each index op hOp).revoked hMove hMarked with hAlready | ⟨-, ⟨hJournal, hLocked, -⟩ | ⟨-, hSaved⟩⟩
    · exact hOthers index op hOp hAlready
    · have hUnlocked := hSound.unlocked hOp hOld hNe hLocked
      exact hClean.unjournaled token hBefore j other hOld hToken (Phase.early_of_unlocked hPhase hUnlocked) hJournal
    · exact hNe (hOnce.same hSound hOp hMove hSaved hOther hToken)

theorem Clean.spared_put (hMarked : token ∈ other.revoked) (hStored : files.token = some token)
    : other.request.isLogout = true ∧ other.phase.succeeded = false := by
  have hBefore := hOnce.before (.move hOp hMove) hSound
  -- What is written was never revoked.
  have hWritten : ∀ (k : Nat) (third : Op), s.ops[k]? = some third → token ∈ third.revoked →
      s.store.token = some token := by
    intro k third hThird hRevoked
    rcases hMove.stored hStored with hKept | ⟨hCommitting, hSaved⟩
    · exact hKept
    · exact absurd hRevoked (hClean.unrevoked token hBefore index op hOp hSaved (by rw [hCommitting]; rfl) k third hThird)
  rcases put_ops hOp hOther with ⟨rfl, rfl⟩ | ⟨hNe, hOld⟩
  · have hOwn := hSound.each _ op hOp
    rcases hOwn.revoked hMove hMarked with hAlready | ⟨hSame, ⟨-, -, hLogout⟩ | ⟨hRecovering, hToken⟩⟩
    · obtain ⟨hLogout, hFailed⟩ := hClean.spared token hBefore _ op hOp hAlready (hWritten _ op hOp hAlready)
      cases hMove with
      | advance hStep =>
        refine ⟨hStep.same.1.symm ▸ hLogout, ?_⟩
        cases hNext : other.phase.succeeded with
        | false => rfl
        | true =>
          rcases hStep.succeeds hOwn.kind hLogout hNext with hDone | hRemoving | hNone
          · rw [hDone] at hFailed
            cases hFailed
          · rw [hOwn.fresh hRemoving] at hAlready
            cases hAlready
          · rw [hNone] at hStored
            cases hStored
      | acquire => exact ⟨hLogout, rfl⟩
      | stop => exact ⟨hLogout, rfl⟩
    · have hDone := hLogout (hSame ▸ hStored)
      refine ⟨?_, hDone.2⟩
      cases hMove with
      | advance hStep => exact hStep.same.1.symm ▸ hDone.1
      | acquire => exact hDone.1
      | stop => exact hDone.1
    · exact absurd (hSame ▸ hStored) (hClean.unsaved token hBefore _ op hOp hToken (by rw [hRecovering]; rfl))
  · exact hClean.spared token hBefore j other hOld hMarked (hWritten j other hOld hMarked)

end

theorem Clean.put (hClean : s.Clean start) (hSound : s.Sound) (hOp : s.ops[index]? = some op)
    (hMove : op.Move s.store files made) : (s.put index files made).Clean start := by
  obtain ⟨hStored, hJournal, hRevoked⟩ := hClean.known_put hSound hOp hMove
  constructor
  case stored => exact hStored
  case journal => exact hJournal
  case revoked =>
      intro j other hOther token hToken
      rcases put_ops hOp hOther with ⟨rfl, rfl⟩ | ⟨-, hOld⟩
      · exact hRevoked token hToken
      · exact (hClean.revoked j other hOld token hToken).later (.move hOp hMove) hSound
  case unsaved => exact fun token hOnce j other => hClean.unsaved_put hSound hOp hMove hOnce
  case unjournaled => exact fun token hOnce j other => hClean.unjournaled_put hSound hOp hMove hOnce
  case unrevoked =>
      intro token hOnce j other hOther hToken hPhase k third hThird
      obtain ⟨hMade, hOthers⟩ := hClean.unrevoked_put hSound hOp hMove hOnce hOther hToken hPhase
      rcases put_ops hOp hThird with ⟨rfl, rfl⟩ | ⟨-, hOld⟩
      · exact hMade
      · exact hOthers k third hOld
  case spared => exact fun token hOnce j other => hClean.spared_put hSound hOp hMove hOnce

end Move

theorem Clean.step (hClean : s.Clean start) (hSound : s.Sound) (hMove : s.Move next) : next.Clean start := by
  cases hMove with
  | call request => exact hClean.call hSound request
  | move hOp hMove => exact hClean.put hSound hOp hMove

/-- Before the first call. -/
def Fresh (s : State) : Prop :=
  s.ops = [] ∧ s.store.lock = none

theorem Sound.of_fresh (hFresh : s.Fresh) : s.Sound :=
  ⟨fun index op hOp => by simp [hFresh.1] at hOp, fun index op hOp => by simp [hFresh.1] at hOp⟩

theorem Clean.of_fresh (hFresh : s.Fresh) : s.Clean s.store := by
  have hNone : ∀ {index : Nat} {op : Op}, s.ops[index]? ≠ some op := fun h => by simp [hFresh.1] at h
  exact ⟨fun token h => Or.inl h, fun token h => Or.inr (Or.inl h), (fun _ _ h => absurd h hNone),
    (fun _ _ _ _ h => absurd h hNone), (fun _ _ _ _ h => absurd h hNone), (fun _ _ _ _ h => absurd h hNone),
    (fun _ _ _ _ h => absurd h hNone)⟩

theorem run_sound {first : State} {events : List Event} (hFresh : first.Fresh) (hRun : first.run events = some s) :
    s.Sound ∧ s.Clean first.store := by
  have hStep : ∀ (before : State) (event : Event) (after : State), True → before.step event = some after →
      before.Sound ∧ before.Clean first.store → after.Sound ∧ after.Clean first.store := by
    intro before event after _ hStep hBoth
    exact ⟨hBoth.1.move (step_cases hStep), hBoth.2.step hBoth.1 (step_cases hStep)⟩
  exact Transition.invariant hStep (fun _ _ => trivial) hRun ⟨Sound.of_fresh hFresh, Clean.of_fresh hFresh⟩

/-- No issued token is dropped, and no operation that ends has revoked what is
stored, but for a logout that failed and a token handed over again. -/
theorem tokens_kept {first finish : State} {events : List Event} (hFresh : first.Fresh)
    (hRun : first.run events = some finish) :
    (∀ op ∈ finish.ops, ∀ token, op.issued = some token → op.phase.Held finish.store token) ∧
      ∀ op ∈ finish.ops, ∀ result, op.phase = .ended result →
        ∀ token ∈ op.revoked, finish.store.token = some token →
          op.request.isLogout = true ∧ result.succeeded = false ∨ ¬ finish.Once first.store token := by
  obtain ⟨hSound, hClean⟩ := run_sound hFresh hRun
  constructor
  · intro op hOp
    obtain ⟨index, hIndex⟩ := getElem?_of_mem hOp
    exact (hSound.each index op hIndex).held
  · intro op hOp result hEnded token hMarked hStored
    obtain ⟨index, hIndex⟩ := getElem?_of_mem hOp
    by_cases hOnce : finish.Once first.store token
    · obtain ⟨hLogout, hFailed⟩ := hClean.spared token hOnce index op hIndex hMarked hStored
      rw [hEnded] at hFailed
      exact Or.inl ⟨hLogout, hFailed⟩
    · exact Or.inr hOnce

/-- A file with one credential and nothing else. -/
def holding (key : String) : State :=
  ⟨⟨some (.apiKey (some (js key))), true, [], [], [], none⟩, []⟩

/-- A login that replaces a token, step by step. -/
def replacing (key : String) : List Event :=
  [.begin (.login true), .advance 0 .ok, .acquired 0 (.apiKey (some (js key))), .advance 0 .ok, .advance 0 .ok,
    .advance 0 .ok, .advance 0 .ok, .advance 0 .ok, .advance 0 .ok, .advance 0 .ok, .advance 0 .ok]

theorem tokens_kept_replaced : ∃ finish, (holding "oct_inf_a").run (replacing "oct_inf_b") = some finish ∧
    finish.store.token = some (js "oct_inf_b") ∧ finish.store.revoked = [js "oct_inf_a"] ∧
    (∀ op ∈ finish.ops, ∀ token, op.issued = some token → op.phase.Held finish.store token) ∧
      ∀ op ∈ finish.ops, ∀ result, op.phase = .ended result →
        ∀ token ∈ op.revoked, finish.store.token = some token →
          op.request.isLogout = true ∧ result.succeeded = false ∨
            ¬ finish.Once (holding "oct_inf_a").store token := by
  obtain ⟨finish, hRun⟩ : ∃ finish, (holding "oct_inf_a").run (replacing "oct_inf_b") = some finish := ⟨_, rfl⟩
  have hKept := tokens_kept ⟨rfl, rfl⟩ hRun
  obtain rfl := some.inj hRun
  exact ⟨_, rfl, rfl, rfl, hKept⟩

/-- A process that stops takes a token along, a logout whose deletion fails and
a second save of the stored token leave a revoked one stored. -/
theorem tokens_dropped :
    (∃ finish, (holding "key").run
        [.begin (.login true), .advance 0 .ok, .acquired 0 (.apiKey (some (js "oct_inf_a"))), .stop 0] = some finish ∧
      ∃ op ∈ finish.ops, op.issued = some (js "oct_inf_a") ∧ op.phase ≠ .ended (.notSaved .unretained) ∧
        ¬ finish.store.Retains (js "oct_inf_a")) ∧
    (∃ finish, (holding "oct_inf_a").run
        [.begin .logout, .advance 0 .ok, .advance 0 .ok, .advance 0 .ok, .advance 0 .ok, .advance 0 .failed,
          .advance 0 .ok] = some finish ∧
      ∃ op ∈ finish.ops, op.phase = .ended .logoutFailed ∧ js "oct_inf_a" ∈ op.revoked ∧
        finish.store.token = some (js "oct_inf_a")) ∧
    ∃ finish, (holding "oct_inf_a").run
        [.begin (.save (.apiKey (some (js "oct_inf_a"))) true), .advance 0 .failed, .advance 0 .ok,
          .advance 0 .ok] = some finish ∧
      ∃ op ∈ finish.ops, op.phase = .ended (.notSaved .revoked) ∧ js "oct_inf_a" ∈ op.revoked ∧
        finish.store.token = some (js "oct_inf_a") := by
  refine ⟨⟨_, rfl, _, mem_singleton_self _, rfl, (fun h => by cases h), ?_⟩,
    ⟨_, rfl, _, mem_singleton_self _, rfl, mem_singleton_self _, rfl⟩,
    ⟨_, rfl, _, mem_singleton_self _, rfl, mem_singleton_self _, rfl⟩⟩
  rintro (hRevoked | hStored | hJournal | hRecovery)
  · cases hRevoked
  · revert hStored
    decide
  · cases hJournal
  · cases hRecovery

end State

end OctoberHarness.Tokens
