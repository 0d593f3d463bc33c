import OctoberHarness.Tokens.Lifecycle

/-! What one step of a token operation does, and what it keeps of the files. -/
namespace OctoberHarness.Tokens

open List Option

/-- A token is on record outside the memory of its operation. -/
def Store.Retains (store : Store) (token : Token) : Prop :=
  token ∈ store.revoked ∨ store.token = some token ∨ token ∈ store.journal ∨ token ∈ store.recovery

/-- A step that no transaction can notice. -/
structure Store.Quiet (store next : Store) : Prop where
  stored : next.stored = store.stored
  journal : next.journal = store.journal
  revoked : store.revoked ⊆ next.revoked
  recovery : store.recovery ⊆ next.recovery

namespace Store

variable {store : Store}

@[simp] theorem mem_writeJournal {tokens : List Token} {token : Token} :
    token ∈ (store.writeJournal tokens).journal ↔ token ∈ tokens := mem_eraseDups

@[simp] theorem mem_revoke {token other : Token} :
    other ∈ (store.revoke token).revoked ↔ other = token ∨ other ∈ store.revoked := mem_cons

@[simp] theorem write_journal (store : Store) (credential : Option Credential) (outcome : Outcome) :
    (store.write credential outcome).journal = store.journal := by
  cases outcome <;> rfl

@[simp] theorem write_revoked (store : Store) (credential : Option Credential) (outcome : Outcome) :
    (store.write credential outcome).revoked = store.revoked := by
  cases outcome <;> rfl

@[simp] theorem write_recovery (store : Store) (credential : Option Credential) (outcome : Outcome) :
    (store.write credential outcome).recovery = store.recovery := by
  cases outcome <;> rfl

theorem write_token {credential : Option Credential} {outcome : Outcome} {token : Token}
    (hToken : (store.write credential outcome).token = some token) :
    inferenceToken credential = some token ∨ outcome = .failed ∧ store.token = some token := by
  cases outcome with
  | ok => exact Or.inl hToken
  | failed => exact Or.inr ⟨rfl, hToken⟩
  | late => exact Or.inl hToken
  | emptied => cases hToken
  | torn => cases hToken

theorem Quiet.refl (store : Store) : store.Quiet store :=
  ⟨rfl, rfl, Subset.refl _, Subset.refl _⟩

theorem quiet_revoke (store : Store) (token : Token) : store.Quiet (store.revoke token) :=
  ⟨rfl, rfl, subset_cons_self _ _, Subset.refl _⟩

theorem Quiet.token {next : Store} (hQuiet : store.Quiet next) : next.token = store.token := by
  rw [Store.token, hQuiet.stored, Store.token]

theorem Quiet.retains {next : Store} (hQuiet : store.Quiet next) {token : Token}
    (hRetains : store.Retains token) : next.Retains token := by
  rcases hRetains with hRevoked | hStored | hJournal | hRecovery
  · exact Or.inl (hQuiet.revoked hRevoked)
  · exact Or.inr (Or.inl (hQuiet.token.trans hStored))
  · exact Or.inr (Or.inr (Or.inl (hQuiet.journal ▸ hJournal)))
  · exact Or.inr (Or.inr (Or.inr (hQuiet.recovery hRecovery)))

end Store

/-- Everything a step of an operation can do. -/
inductive Op.Advance (op : Op) (store : Store) : Store → Op → Prop where
  | begins {goal : Goal} (hPhase : op.phase = .cleaning goal) (hFree : store.free) :
      Op.Advance op store store (op.goTo (.cleanLocked store.token store.journal (some goal)))
  | shut {goal : Goal} (hPhase : op.phase = .cleaning goal) :
      Op.Advance op store store (op.goTo (.leaving goal.failure))
  | clears {active : Option Token} {goal : Option Goal} {phase : Phase} (hPhase : op.phase = .revoking active [] goal)
      (hNext : phase = .cleaned goal ∨ phase = .uncleaned goal) :
      Op.Advance op store (store.writeJournal []) (op.goTo phase)
  | sticks {active : Option Token} {todo : List Token} {goal : Option Goal}
      (hPhase : op.phase = .revoking active todo goal) : Op.Advance op store store (op.goTo (.uncleaned goal))
  | skips {token : Token} {rest : List Token} {goal : Option Goal}
      (hPhase : op.phase = .revoking (some token) (token :: rest) goal) :
      Op.Advance op store store (op.goTo (.revoking (some token) rest goal))
  | revokes {active : Option Token} {token : Token} {rest : List Token} {goal : Option Goal} {phase : Phase}
      (hPhase : op.phase = .revoking active (token :: rest) goal) (hOther : some token ≠ active)
      (hNext : phase = .revoking active rest goal ∨ phase = .uncleaned goal) :
      Op.Advance op store (store.revoke token) ((op.mark token).goTo phase)
  | unacquired (hPhase : op.phase = .acquiring) : Op.Advance op store store (op.goTo (.leaving .aborted))
  | saves (hPhase : op.phase = .saving) (hFree : store.free) :
      Op.Advance op store store (op.goTo (.journaling store.token))
  | unsaved (hPhase : op.phase = .saving) : Op.Advance op store store (op.goTo (op.unjournaled false))
  | journals {previous : Option Token} (hPhase : op.phase = .journaling previous) :
      Op.Advance op store (store.writeJournal (store.journal ++ previous.toList ++ op.issued.toList))
        (op.goTo .committing)
  | unjournals {previous : Option Token} {next : Store} (hPhase : op.phase = .journaling previous)
      (hNext : next = store ∨ next = store.writeJournal (store.journal ++ previous.toList ++ op.issued.toList)) :
      Op.Advance op store next (op.goTo (op.unjournaled (op.issued.isSome && previous = op.issued)))
  | commits (outcome : Outcome) (hPhase : op.phase = .committing) :
      Op.Advance op store (store.write op.credential outcome) (op.goTo (.cleaning (.saved outcome.isOk)))
  | recovers {token : Token} {phase : Phase} (hPhase : op.phase = .recovering) (hIssued : op.issued = some token)
      (hNext : phase = .leaving (.notSaved .revoked) ∨ phase = .filing) :
      Op.Advance op store (store.revoke token) ((op.mark token).goTo phase)
  | unrecovered (hPhase : op.phase = .recovering) : Op.Advance op store store (op.goTo .filing)
  | files {token : Token} (hPhase : op.phase = .filing) (hIssued : op.issued = some token) :
      Op.Advance op store { store with recovery := token :: store.recovery }
        (op.goTo (.leaving (.notSaved .filed)))
  | unfiled (hPhase : op.phase = .filing) : Op.Advance op store store (op.goTo (.leaving (.notSaved .unretained)))
  | absent (hPhase : op.phase = .removing) : Op.Advance op store store (op.goTo (.leaving .nothingStored))
  | removes (hPhase : op.phase = .removing) (hFree : store.free) :
      Op.Advance op store store (op.goTo (.noting store.token))
  | kept (hPhase : op.phase = .removing) : Op.Advance op store store (op.goTo (.leaving .logoutFailed))
  | notes {active : Option Token} (hPhase : op.phase = .noting active) :
      Op.Advance op store (store.writeJournal (store.journal ++ active.toList))
        (op.goTo (.cleanLocked none (store.journal ++ active.toList).eraseDups none))
  | unnoted {active : Option Token} {next : Store} (hPhase : op.phase = .noting active)
      (hNext : next = store ∨ next = store.writeJournal (store.journal ++ active.toList)) :
      Op.Advance op store next (op.goTo (.leaving .logoutFailed))
  | deletes (outcome : Outcome) (hPhase : op.phase = .deleting) :
      Op.Advance op store (store.write none outcome)
        (op.goTo (.leaving (if outcome.isOk then .ok else .logoutFailed)))
  | ends {result : Result} (hPhase : op.phase = .leaving result) : Op.Advance op store store (op.goTo (.ended result))

namespace Op

variable {op next : Op} {store files : Store} {outcome : Outcome}

theorem clean_cases {goal : Goal} (hPhase : op.phase = .cleaning goal)
    (hStep : op.clean store goal outcome = some (files, next)) : op.Advance store files next := by
  cases outcome with
  | ok =>
    by_cases hFree : store.free = true
    · obtain ⟨rfl, rfl⟩ : store = files ∧ _ = next := by simpa [clean, hFree] using hStep
      exact .begins hPhase hFree
    · simp [clean, hFree] at hStep
  | failed =>
    obtain ⟨rfl, rfl⟩ : store = files ∧ _ = next := by simpa [clean] using hStep
    exact .shut hPhase
  | late | emptied | torn => cases hStep

variable {active : Option Token}

theorem revokeNext_cases {todo : List Token} {goal : Option Goal} (hPhase : op.phase = .revoking active todo goal)
    (hStep : op.revokeNext store active todo goal outcome = some (files, next)) : op.Advance store files next := by
  cases todo with
  | nil =>
    cases outcome with
    | ok => obtain ⟨rfl, rfl⟩ := hStep; exact .clears hPhase (Or.inl rfl)
    | late => obtain ⟨rfl, rfl⟩ := hStep; exact .clears hPhase (Or.inr rfl)
    | failed => obtain ⟨rfl, rfl⟩ := hStep; exact .sticks hPhase
    | emptied | torn => cases hStep
  | cons token rest =>
    by_cases hActive : some token = active
    · subst hActive
      obtain ⟨rfl, rfl⟩ : store = files ∧ _ = next := by simpa [revokeNext] using hStep
      exact .skips hPhase
    · cases outcome with simp only [revokeNext, if_neg hActive, some.injEq, Prod.mk.injEq] at hStep
      | ok => obtain ⟨rfl, rfl⟩ := hStep; exact .revokes hPhase hActive (Or.inl rfl)
      | late => obtain ⟨rfl, rfl⟩ := hStep; exact .revokes hPhase hActive (Or.inr rfl)
      | failed => obtain ⟨rfl, rfl⟩ := hStep; exact .sticks hPhase
      | emptied | torn => cases hStep

theorem save_cases (hPhase : op.phase = .saving) (hStep : op.save store outcome = some (files, next)) :
    op.Advance store files next := by
  cases outcome with
  | ok =>
    by_cases hFree : store.free = true
    · obtain ⟨rfl, rfl⟩ : store = files ∧ _ = next := by simpa [save, hFree] using hStep
      exact .saves hPhase hFree
    · simp [save, hFree] at hStep
  | failed => obtain ⟨rfl, rfl⟩ := hStep; exact .unsaved hPhase
  | late | emptied | torn => cases hStep

theorem journalSave_cases {previous : Option Token} (hPhase : op.phase = .journaling previous)
    (hStep : op.journalSave store previous outcome = some (files, next)) : op.Advance store files next := by
  cases outcome with
  | ok => obtain ⟨rfl, rfl⟩ := hStep; exact .journals hPhase
  | late => obtain ⟨rfl, rfl⟩ := hStep; exact .unjournals hPhase (Or.inr rfl)
  | failed => obtain ⟨rfl, rfl⟩ := hStep; exact .unjournals hPhase (Or.inl rfl)
  | emptied | torn => cases hStep

theorem recover_cases (hPhase : op.phase = .recovering) (hStep : op.recover store outcome = some (files, next)) :
    op.Advance store files next := by
  cases hIssued : op.issued with
  | none => simp [recover, hIssued] at hStep
  | some token =>
    cases outcome with simp only [recover, hIssued, some.injEq, Prod.mk.injEq] at hStep
    | ok => obtain ⟨rfl, rfl⟩ := hStep; exact .recovers hPhase hIssued (Or.inl rfl)
    | late => obtain ⟨rfl, rfl⟩ := hStep; exact .recovers hPhase hIssued (Or.inr rfl)
    | failed => obtain ⟨rfl, rfl⟩ := hStep; exact .unrecovered hPhase
    | emptied | torn => cases hStep

theorem writeRecoveryFile_cases (hPhase : op.phase = .filing)
    (hStep : op.writeRecoveryFile store outcome = some (files, next)) : op.Advance store files next := by
  cases hIssued : op.issued with
  | none => simp [writeRecoveryFile, hIssued] at hStep
  | some token =>
    cases outcome with simp only [writeRecoveryFile, hIssued, some.injEq, Prod.mk.injEq] at hStep
    | ok => obtain ⟨rfl, rfl⟩ := hStep; exact .files hPhase hIssued
    | failed => obtain ⟨rfl, rfl⟩ := hStep; exact .unfiled hPhase
    | late | emptied | torn => cases hStep

theorem remove_cases (hPhase : op.phase = .removing) (hStep : op.remove store outcome = some (files, next)) :
    op.Advance store files next := by
  cases outcome with
  | ok =>
    simp only [remove] at hStep
    split_ifs at hStep with hFree hEmpty
    · obtain ⟨rfl, rfl⟩ := hStep; exact .absent hPhase
    · obtain ⟨rfl, rfl⟩ := hStep; exact .removes hPhase hFree
  | failed => obtain ⟨rfl, rfl⟩ := hStep; exact .kept hPhase
  | late | emptied | torn => cases hStep

theorem journalLogout_cases (hPhase : op.phase = .noting active)
    (hStep : op.journalLogout store active outcome = some (files, next)) : op.Advance store files next := by
  cases outcome with
  | ok => obtain ⟨rfl, rfl⟩ := hStep; exact .notes hPhase
  | late => obtain ⟨rfl, rfl⟩ := hStep; exact .unnoted hPhase (Or.inr rfl)
  | failed => obtain ⟨rfl, rfl⟩ := hStep; exact .unnoted hPhase (Or.inl rfl)
  | emptied | torn => cases hStep

theorem advance_cases (hStep : op.advance store outcome = some (files, next)) : op.Advance store files next := by
  unfold advance at hStep
  cases hPhase : op.phase with rw [hPhase] at hStep
  | cleaning goal => exact clean_cases hPhase hStep
  | revoking active todo goal => exact revokeNext_cases hPhase hStep
  | acquiring =>
    cases hOk : outcome.isOk with
    | true => simp [hOk] at hStep
    | false =>
      obtain ⟨rfl, rfl⟩ : store = files ∧ _ = next := by simpa [hOk] using hStep
      exact .unacquired hPhase
  | saving => exact save_cases hPhase hStep
  | journaling previous => exact journalSave_cases hPhase hStep
  | committing => obtain ⟨rfl, rfl⟩ := hStep; exact .commits outcome hPhase
  | recovering => exact recover_cases hPhase hStep
  | filing => exact writeRecoveryFile_cases hPhase hStep
  | removing => exact remove_cases hPhase hStep
  | noting active => exact journalLogout_cases hPhase hStep
  | deleting => obtain ⟨rfl, rfl⟩ := hStep; exact .deletes outcome hPhase
  | leaving result => obtain ⟨rfl, rfl⟩ := hStep; exact .ends hPhase
  | ended result => cases hStep
  | stopped holding => cases hStep

end Op

/-- What an operation in a transaction knows of the files. -/
def Phase.View (store : Store) (issued : Option Token) : Phase → Prop
  | .revoking active todo goal =>
    todo ⊆ store.journal ∧
      (∀ token ∈ store.journal, token ∈ todo ∨ token ∈ store.revoked ∨ some token = active) ∧
        if goal.isSome then active = store.token
        else active = none ∧ ∀ token ∈ store.token, token ∈ store.journal
  | .journaling previous => previous = store.token
  | .committing => (∀ token ∈ store.token, token ∈ store.journal) ∧ ∀ token ∈ issued, token ∈ store.journal
  | .noting active => active = store.token
  | .deleting => ∀ token ∈ store.token, token ∈ store.revoked
  | _ => True

/-- Whether a phase is one of a logout, where it can be told. -/
def Phase.ofLogout : Phase → Option Bool
  | .revoking _ _ goal => some goal.isNone
  | .removing | .noting _ | .deleting => some true
  | .cleaning _ | .acquiring | .saving | .journaling _ | .committing | .recovering | .filing => some false
  | .leaving _ | .ended _ | .stopped _ => none

/-- Nobody needs to look for the token: it is on record, its operation still
has it, or the loss was reported or came with the end of the process. -/
def Phase.Held (store : Store) (token : Token) (phase : Phase) : Prop :=
  store.Retains token ∨ phase.holds ∨ phase = .ended (.notSaved .unretained) ∨ phase = .stopped true

namespace Phase

variable {store next : Store} {issued : Option Token} {phase : Phase} {token : Token}

theorem view_of_unlocked (hUnlocked : phase.locked = false) : phase.View store issued := by
  cases phase with
  | revoking | journaling | committing | noting | deleting => cases hUnlocked
  | cleaning | acquiring | saving | recovering | filing | removing | leaving | ended | stopped => trivial

theorem view_of_quiet (hQuiet : store.Quiet next) (hView : phase.View store issued) : phase.View next issued := by
  cases phase with
  | revoking active todo goal =>
    obtain ⟨hTodo, hJournal, hActive⟩ := hView
    rw [View, hQuiet.journal, hQuiet.token]
    exact ⟨hTodo, fun token hToken => (hJournal token hToken).imp_right
      fun h => h.imp_left fun hRevoked => hQuiet.revoked hRevoked, hActive⟩
  | journaling previous => exact hView.trans hQuiet.token.symm
  | committing => rwa [View, hQuiet.journal, hQuiet.token]
  | noting active => exact hView.trans hQuiet.token.symm
  | deleting =>
    rw [View, hQuiet.token]
    exact fun token hToken => hQuiet.revoked (hView token hToken)
  | cleaning | acquiring | saving | recovering | filing | removing | leaving | ended | stopped => trivial

theorem view_cleaned (goal : Option Goal) (hStored : goal = none → ∀ token ∈ store.token, token ∈ store.revoked) :
    (cleaned goal).View store issued := by
  cases goal with
  | none => exact hStored rfl
  | some goal => cases goal <;> trivial

theorem view_cleanLocked (goal : Option Goal) {active : Option Token} (tokens : List Token)
    (hTokens : ∀ token, token ∈ tokens ↔ token ∈ store.journal)
    (hActive : if goal.isSome then active = store.token
      else active = none ∧ ∀ token ∈ store.token, token ∈ store.journal) :
    (cleanLocked active tokens goal).View store issued := by
  unfold cleanLocked
  split_ifs with hEmpty
  · apply view_cleaned
    rintro rfl token hToken
    have hJournal := (hTokens token).mpr (hActive.2 token hToken)
    simp [hEmpty] at hJournal
  · exact ⟨fun token h => (hTokens token).mp h, fun token h => Or.inl ((hTokens token).mpr h), hActive⟩

theorem ofLogout_cleaned (goal : Option Goal) : ∀ logout ∈ (cleaned goal).ofLogout, logout = goal.isNone := by
  cases goal with
  | none => simp [cleaned, ofLogout]
  | some goal => cases goal <;> simp [cleaned, Goal.next, ofLogout]

theorem ofLogout_cleanLocked (active : Option Token) (tokens : List Token) (goal : Option Goal) :
    ∀ logout ∈ (cleanLocked active tokens goal).ofLogout, logout = goal.isNone := by
  unfold cleanLocked
  split_ifs with hEmpty
  · exact ofLogout_cleaned goal
  · simp [ofLogout]

end Phase

namespace Op

variable {op next : Op} {store files : Store}

@[simp] theorem goTo_phase (op : Op) (phase : Phase) : (op.goTo phase).phase = phase := rfl

variable {token : Token}

theorem token_of_issued (hIssued : op.issued = some token) : op.token = some token := by
  unfold issued at hIssued
  split_ifs at hIssued
  exact hIssued

theorem unjournaled_unlocked (op : Op) (alreadyActive : Bool) : (op.unjournaled alreadyActive).locked = false := by
  unfold unjournaled
  split_ifs <;> rfl

theorem ofLogout_unjournaled (op : Op) (alreadyActive : Bool) :
    ∀ logout ∈ (op.unjournaled alreadyActive).ofLogout, logout = false := by
  unfold unjournaled
  split_ifs <;> simp [Phase.ofLogout]

theorem Advance.same (hStep : op.Advance store files next) :
    next.request = op.request ∧ next.token = op.token ∧ next.issued = op.issued := by
  cases hStep <;> exact ⟨rfl, rfl, rfl⟩

theorem Advance.quiet (hStep : op.Advance store files next) (hUnlocked : op.phase.locked = false) :
    store.Quiet files := by
  cases hStep with
  | recovers => exact Store.quiet_revoke store _
  | files => exact ⟨rfl, rfl, Subset.refl _, subset_cons_self _ _⟩
  | clears hPhase | revokes hPhase | journals hPhase | unjournals hPhase | commits outcome hPhase | notes hPhase
  | unnoted hPhase | deletes outcome hPhase => simp [hPhase, Phase.locked] at hUnlocked
  | _ => exact Store.Quiet.refl store

theorem Advance.lock (hStep : op.Advance store files next) : files.lock = store.lock := by
  cases hStep with
  | unjournals hPhase hNext | unnoted hPhase hNext => rcases hNext with rfl | rfl <;> rfl
  | commits outcome | deletes outcome => cases outcome <;> rfl
  | _ => rfl

theorem free_lock (hFree : store.free = true) : store.lock = none := by
  simp only [Store.free, Bool.and_eq_true, decide_eq_true_eq] at hFree
  exact hFree.1

section

variable (hStep : op.Advance store files next)

include hStep

theorem Advance.enters (hLocked : next.phase.locked = true) :
    op.phase.locked = true ∨ store.lock = none := by
  cases hStep with
  | begins hPhase hFree | saves hPhase hFree | removes hPhase hFree => exact Or.inr (free_lock hFree)
  | clears hPhase | sticks hPhase | skips hPhase | revokes hPhase | journals hPhase | unjournals hPhase
  | commits outcome hPhase | notes hPhase | unnoted hPhase | deletes outcome hPhase => exact Or.inl (by rw [hPhase]; rfl)
  | recovers hPhase hIssued hNext => rcases hNext with rfl | rfl <;> cases hLocked
  | unsaved hPhase => simp [unjournaled_unlocked] at hLocked
  | _ => cases hLocked

theorem Advance.kind (hKind : ∀ logout ∈ op.phase.ofLogout, logout = op.request.isLogout) :
    ∀ logout ∈ next.phase.ofLogout, logout = next.request.isLogout := by
  rw [hStep.same.1]
  cases hStep with
  | begins hPhase hFree =>
    rw [hPhase] at hKind
    intro logout hLogout
    rw [Phase.ofLogout_cleanLocked _ _ _ logout hLogout, ← hKind false rfl]
    rfl
  | clears hPhase hNext | revokes hPhase hOther hNext =>
    rw [hPhase] at hKind
    intro logout hLogout
    rw [← hKind _ rfl]
    rcases hNext with rfl | rfl
    · first | exact Phase.ofLogout_cleaned _ logout hLogout | exact (some.inj hLogout).symm
    · cases hLogout
  | skips hPhase => exact fun logout hLogout => hKind logout (by rw [hPhase]; exact hLogout)
  | unsaved hPhase | unjournals hPhase hNext =>
    rw [hPhase] at hKind
    intro logout hLogout
    rw [← hKind false rfl]
    exact ofLogout_unjournaled op _ logout hLogout
  | saves hPhase | journals hPhase | commits outcome hPhase | unrecovered hPhase | removes hPhase =>
    rw [hPhase] at hKind
    exact hKind
  | recovers hPhase hIssued hNext =>
    rw [hPhase] at hKind
    rcases hNext with rfl | rfl
    · exact fun logout hLogout => by cases hLogout
    · exact hKind
  | notes hPhase =>
    rw [hPhase] at hKind
    intro logout hLogout
    rw [Phase.ofLogout_cleanLocked _ _ _ logout hLogout, ← hKind true rfl]
    rfl
  | _ => exact fun logout hLogout => by cases hLogout

theorem Advance.view (hView : op.phase.View store op.issued) :
    next.phase.View files next.issued := by
  rw [hStep.same.2.2]
  cases hStep with
  | begins hPhase hFree => exact Phase.view_cleanLocked _ _ (fun token => Iff.rfl) rfl
  | clears hPhase hNext =>
    rw [hPhase] at hView
    obtain ⟨hTodo, hJournal, hActive⟩ := hView
    rcases hNext with rfl | rfl
    · apply Phase.view_cleaned
      rintro rfl token hToken
      have hPending := hActive.2 token hToken
      rcases hJournal token hPending with hNone | hRevoked | hSome
      · cases hNone
      · exact hRevoked
      · simp [hActive.1] at hSome
    · trivial
  | skips hPhase =>
    rw [hPhase] at hView
    obtain ⟨hTodo, hJournal, hActive⟩ := hView
    refine ⟨fun token h => hTodo (mem_cons_of_mem _ h), fun token hToken => ?_, hActive⟩
    rcases hJournal token hToken with hHead | hRest
    · rcases List.mem_cons.mp hHead with rfl | hTail
      · exact Or.inr (Or.inr rfl)
      · exact Or.inl hTail
    · exact Or.inr hRest
  | revokes hPhase hOther hNext =>
    rw [hPhase] at hView
    obtain ⟨hTodo, hJournal, hActive⟩ := hView
    rcases hNext with rfl | rfl
    · refine ⟨fun token h => hTodo (mem_cons_of_mem _ h), fun token hToken => ?_, hActive⟩
      rcases hJournal token hToken with hHead | hRevoked | hSkipped
      · rcases List.mem_cons.mp hHead with rfl | hTail
        · exact Or.inr (Or.inl (Store.mem_revoke.mpr (Or.inl rfl)))
        · exact Or.inl hTail
      · exact Or.inr (Or.inl (Store.mem_revoke.mpr (Or.inr hRevoked)))
      · exact Or.inr (Or.inr hSkipped)
    · trivial
  | saves | removes => rfl
  | unsaved => exact Phase.view_of_unlocked (unjournaled_unlocked _ _)
  | unjournals => exact Phase.view_of_unlocked (unjournaled_unlocked _ _)
  | journals hPhase =>
    rw [hPhase] at hView
    obtain rfl : _ = store.token := hView
    refine ⟨fun token hToken => ?_, fun token hToken => ?_⟩
    · exact Store.mem_writeJournal.mpr (mem_append_left _ (mem_append_right _ (mem_toList.mpr hToken)))
    · exact Store.mem_writeJournal.mpr (mem_append_right _ (mem_toList.mpr hToken))
  | recovers hPhase hIssued hNext => rcases hNext with rfl | rfl <;> trivial
  | notes hPhase =>
    rw [hPhase] at hView
    obtain rfl : _ = store.token := hView
    refine Phase.view_cleanLocked _ _ (fun token => Iff.rfl) ⟨rfl, fun token hToken => ?_⟩
    exact Store.mem_writeJournal.mpr (mem_append_right _ (mem_toList.mpr hToken))
  | _ => trivial

theorem Advance.retains (hView : op.phase.View store op.issued) (hRetains : store.Retains token) : files.Retains token := by
  cases hStep with
  | clears hPhase hNext =>
    rw [hPhase] at hView
    obtain ⟨hTodo, hJournal, hActive⟩ := hView
    rcases hRetains with hRevoked | hStored | hPending | hRecovery
    · exact Or.inl hRevoked
    · exact Or.inr (Or.inl hStored)
    · rcases hJournal token hPending with hNone | hRevoked | hSome
      · cases hNone
      · exact Or.inl hRevoked
      · split_ifs at hActive with hGoal
        · exact Or.inr (Or.inl (hActive ▸ hSome.symm))
        · simp [hActive.1] at hSome
    · exact Or.inr (Or.inr (Or.inr hRecovery))
  | revokes => exact (Store.quiet_revoke store _).retains hRetains
  | recovers => exact (Store.quiet_revoke store _).retains hRetains
  | journals hPhase =>
    exact hRetains.imp_right fun h => h.imp_right fun h => h.imp_left fun hJournal =>
      Store.mem_writeJournal.mpr (mem_append_left _ (mem_append_left _ hJournal))
  | unjournals hPhase hNext =>
    rcases hNext with rfl | rfl
    · exact hRetains
    · exact hRetains.imp_right fun h => h.imp_right fun h => h.imp_left fun hJournal =>
        Store.mem_writeJournal.mpr (mem_append_left _ (mem_append_left _ hJournal))
  | commits outcome hPhase =>
    rw [hPhase] at hView
    rcases hRetains with hRevoked | hStored | hPending | hRecovery
    · exact Or.inl ((store.write_revoked _ outcome).symm ▸ hRevoked)
    · exact Or.inr (Or.inr (Or.inl ((store.write_journal _ outcome).symm ▸ hView.1 token hStored)))
    · exact Or.inr (Or.inr (Or.inl ((store.write_journal _ outcome).symm ▸ hPending)))
    · exact Or.inr (Or.inr (Or.inr ((store.write_recovery _ outcome).symm ▸ hRecovery)))
  | files => exact hRetains.imp_right fun h => h.imp_right fun h => h.imp_right fun hRecovery => mem_cons_of_mem _ hRecovery
  | notes hPhase =>
    exact hRetains.imp_right fun h => h.imp_right fun h => h.imp_left fun hJournal =>
      Store.mem_writeJournal.mpr (mem_append_left _ hJournal)
  | unnoted hPhase hNext =>
    rcases hNext with rfl | rfl
    · exact hRetains
    · exact hRetains.imp_right fun h => h.imp_right fun h => h.imp_left fun hJournal =>
        Store.mem_writeJournal.mpr (mem_append_left _ hJournal)
  | deletes outcome hPhase =>
    rw [hPhase] at hView
    rcases hRetains with hRevoked | hStored | hPending | hRecovery
    · exact Or.inl ((store.write_revoked _ outcome).symm ▸ hRevoked)
    · exact Or.inl ((store.write_revoked _ outcome).symm ▸ hView token hStored)
    · exact Or.inr (Or.inr (Or.inl ((store.write_journal _ outcome).symm ▸ hPending)))
    · exact Or.inr (Or.inr (Or.inr ((store.write_recovery _ outcome).symm ▸ hRecovery)))
  | _ => exact hRetains

end

theorem held_unjournaled (hIssued : op.issued = some token) {alreadyActive : Bool}
    (hActive : alreadyActive = true → store.Retains token) : (op.unjournaled alreadyActive).Held store token := by
  unfold unjournaled
  cases alreadyActive with
  | true => exact Or.inl (hActive rfl)
  | false => simp [hIssued, Phase.Held, Phase.holds]

theorem Advance.held (hStep : op.Advance store files next) (hView : op.phase.View store op.issued)
    (hIssued : op.issued = some token) (hHeld : op.phase.Held store token) : next.phase.Held files token := by
  rcases hHeld with hRetains | hHolds | hEnded | hStopped
  · exact Or.inl (hStep.retains hView hRetains)
  · cases hStep with
    | saves | unrecovered | unfiled => exact Or.inr (Or.inl rfl)
    | unsaved => exact held_unjournaled hIssued (fun h => by cases h)
    | journals hPhase =>
      exact Or.inl (Or.inr (Or.inr (Or.inl (Store.mem_writeJournal.mpr
        (mem_append_right _ (mem_toList.mpr hIssued))))))
    | unjournals hPhase hNext =>
      rw [hPhase] at hView
      apply held_unjournaled hIssued
      intro hActive
      simp only [Bool.and_eq_true, decide_eq_true_eq] at hActive
      have hStored : store.token = some token := (show _ = store.token from hView) ▸ hActive.2.trans hIssued
      rcases hNext with rfl | rfl <;> exact Or.inr (Or.inl hStored)
    | recovers hPhase hOwn hNext =>
      obtain rfl := some.inj (hIssued.symm.trans hOwn)
      exact Or.inl (Or.inl (Store.mem_revoke.mpr (Or.inl rfl)))
    | files hPhase hOwn =>
      obtain rfl := some.inj (hIssued.symm.trans hOwn)
      exact Or.inl (Or.inr (Or.inr (Or.inr mem_cons_self)))
    | @ends result hPhase =>
      rw [hPhase] at hHolds
      refine Or.inr (Or.inr (Or.inl ?_))
      rw [goTo_phase, of_decide_eq_true hHolds]
    | begins hPhase | shut hPhase | clears hPhase | sticks hPhase | skips hPhase | revokes hPhase | unacquired hPhase
    | commits outcome hPhase | absent hPhase | removes hPhase | kept hPhase | notes hPhase | unnoted hPhase
    | deletes outcome hPhase => simp [hPhase, Phase.holds] at hHolds
  · cases hStep with
    | _ hPhase => simp_all
  · cases hStep with
    | _ hPhase => simp_all

end Op

end OctoberHarness.Tokens
