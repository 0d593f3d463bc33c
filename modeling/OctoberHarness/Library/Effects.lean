import Mathlib.Data.Fin.Basic
import Mathlib.Data.List.Forall2
import Mathlib.Logic.Function.Basic

/-! Programs that call operations of an environment, throw, loop and wait for tasks
that run side by side, with rules for what holds along every run. -/
namespace OctoberHarness.Effects

open Function

/-- A program. The environment answers an operation or makes it throw. -/
inductive Program (ε : Type) (Op : Type → Type) : Type → Type 1 where
  | ret {α : Type} (a : α) : Program ε Op α
  | throw {α : Type} (e : ε) : Program ε Op α
  | op {α β : Type} (o : Op β) (next : Except ε β → Program ε Op α) : Program ε Op α
  /-- A loop with the pass it is in. -/
  | iter {α σ β : Type} (body : σ → Program ε Op (σ ⊕ β)) (pass : Program ε Op (σ ⊕ β))
      (next : Except ε β → Program ε Op α) : Program ε Op α
  /-- Tasks side by side; the first that throws ends the wait. -/
  | par {α β : Type} {n : Nat} (tasks : Fin n → Program ε Op β)
      (next : Except ε (Fin n → β) → Program ε Op α) : Program ε Op α

namespace Program

variable {ε : Type} {Op : Type → Type} {α β σ : Type}

/-- Goes on with a result or an error. -/
def handle : Program ε Op α → (α → Program ε Op β) → (ε → Program ε Op β) → Program ε Op β
  | ret a, onReturn, _ => onReturn a
  | throw e, _, onThrow => onThrow e
  | op o next, onReturn, onThrow => op o fun answer => (next answer).handle onReturn onThrow
  | iter body pass next, onReturn, onThrow => iter body pass fun result => (next result).handle onReturn onThrow
  | par tasks next, onReturn, onThrow => par tasks fun results => (next results).handle onReturn onThrow

instance : Monad (Program ε Op) where
  pure := ret
  bind p f := p.handle f throw

instance : MonadExceptOf ε (Program ε Op) where
  throw := throw
  tryCatch p onThrow := p.handle ret onThrow

/-- Returns what was returned, throws what was thrown. -/
def settle : Except ε α → Program ε Op α
  | .ok a => ret a
  | .error e => throw e

def perform (o : Op α) : Program ε Op α :=
  op o settle

/-- Runs passes until one leaves the loop. -/
def loop (body : σ → Program ε Op (σ ⊕ β)) (start : σ) : Program ε Op β :=
  iter body (body start) settle

/-- `Promise.all`. -/
def all (tasks : List (Program ε Op β)) : Program ε Op (List β) :=
  par (fun i : Fin tasks.length => tasks.get i) fun results => settle (results.map List.ofFn)

/-- Every operation the program can come to satisfies `P`. -/
def Uses (P : {γ : Type} → Op γ → Prop) : {α : Type} → Program ε Op α → Prop
  | _, ret _ => True
  | _, throw _ => True
  | _, op o next => P o ∧ ∀ answer, (next answer).Uses P
  | _, iter body pass next => (∀ s, (body s).Uses P) ∧ pass.Uses P ∧ ∀ result, (next result).Uses P
  | _, par tasks next => (∀ i, (tasks i).Uses P) ∧ ∀ results, (next results).Uses P

variable {P : {γ : Type} → Op γ → Prop} {p : Program ε Op α}

theorem Uses.mono {P' : {γ : Type} → Op γ → Prop} (h : p.Uses P) (hMore : ∀ {γ : Type} (o : Op γ), P o → P' o) : p.Uses P' := by
  induction p with
  | ret _ => trivial
  | throw _ => trivial
  | op o _ ih => exact ⟨hMore o h.1, fun answer => ih answer (h.2 answer)⟩
  | iter _ _ _ hBody hPass ih => exact ⟨fun s => hBody s (h.1 s), hPass h.2.1, fun result => ih result (h.2.2 result)⟩
  | par _ _ hTasks ih => exact ⟨fun i => hTasks i (h.1 i), fun results => ih results (h.2 results)⟩

variable {onThrow : ε → Program ε Op β} {w : W} {onReturn : α → Program ε Op β}

theorem Uses.handle (h : p.Uses P)
    (hReturn : ∀ a, (onReturn a).Uses P) (hThrow : ∀ e, (onThrow e).Uses P) : (p.handle onReturn onThrow).Uses P := by
  induction p with
  | ret a => exact hReturn a
  | throw e => exact hThrow e
  | op o next ih => exact ⟨h.1, fun answer => ih answer (h.2 answer) hReturn⟩
  | iter body pass next _ _ ih => exact ⟨h.1, h.2.1, fun result => ih result (h.2.2 result) hReturn⟩
  | par tasks next _ ih => exact ⟨h.1, fun results => ih results (h.2 results) hReturn⟩

variable {f : α → Program ε Op β}

theorem Uses.bind (h : p.Uses P) (hNext : ∀ a, (f a).Uses P) :
    (p >>= f).Uses P :=
  h.handle hNext fun _ => trivial

theorem Uses.tryCatch {onThrow : ε → Program ε Op α} (h : p.Uses P)
    (hThrow : ∀ e, (onThrow e).Uses P) : (tryCatch p onThrow).Uses P :=
  h.handle (fun _ => trivial) hThrow

theorem Uses.settle (result : Except ε α) : (settle result : Program ε Op α).Uses P := by
  cases result <;> trivial

theorem Uses.perform {o : Op α} (h : P o) : (perform o : Program ε Op α).Uses P :=
  ⟨h, Uses.settle⟩

theorem Uses.loop {body : σ → Program ε Op (σ ⊕ β)} (h : ∀ s, (body s).Uses P) (start : σ) : (loop body start).Uses P :=
  ⟨h, h start, Uses.settle⟩

theorem Uses.all {tasks : List (Program ε Op β)} (h : ∀ task ∈ tasks, task.Uses P) : (all tasks).Uses P :=
  ⟨fun _ => h _ (List.get_mem _ _), fun _ => Uses.settle _⟩

/-- Every result of the program satisfies `R`. -/
def Returns (R : α → Prop) : Program ε Op α → Prop
  | ret a => R a
  | throw _ => True
  | op _ next => ∀ answer, (next answer).Returns R
  | iter _ _ next => ∀ result, (next result).Returns R
  | par _ next => ∀ results, (next results).Returns R

theorem Returns.handle {R : β → Prop} (p : Program ε Op α)
    (hReturn : ∀ a, (onReturn a).Returns R) (hThrow : ∀ e, (onThrow e).Returns R) : (p.handle onReturn onThrow).Returns R := by
  induction p with
  | ret a => exact hReturn a
  | throw e => exact hThrow e
  | op _ _ ih => exact fun answer => ih answer hReturn
  | iter _ _ _ _ _ ih => exact fun result => ih result hReturn
  | par _ _ _ ih => exact fun results => ih results hReturn

theorem Returns.bind {R : β → Prop} (p : Program ε Op α) (h : ∀ a, (f a).Returns R) :
    (p >>= f).Returns R :=
  Returns.handle p h fun _ => trivial

theorem Returns.tryCatch {R : α → Prop} {onThrow : ε → Program ε Op α} (h : p.Returns R)
    (hThrow : ∀ e, (onThrow e).Returns R) : (tryCatch p onThrow).Returns R := by
  show (p.handle ret onThrow).Returns R
  induction p with
  | ret a => exact h
  | throw e => exact hThrow e
  | op _ _ ih => exact fun answer => ih answer (h answer) hThrow
  | iter _ _ _ _ _ ih => exact fun result => ih result (h result) hThrow
  | par _ _ _ ih => exact fun results => ih results (h results) hThrow

/-- What goes on is told by the results there can be. -/
theorem Uses.bind_of {R : α → Prop} (h : p.Uses P) (hResult : p.Returns R)
    (hNext : ∀ a, R a → (f a).Uses P) : (p >>= f).Uses P := by
  show (p.handle f throw).Uses P
  induction p with
  | ret a => exact hNext a hResult
  | throw e => trivial
  | op _ _ ih => exact ⟨h.1, fun answer => ih answer (h.2 answer) (hResult answer) hNext⟩
  | iter _ _ _ _ _ ih => exact ⟨h.1, h.2.1, fun result => ih result (h.2.2 result) (hResult result) hNext⟩
  | par _ _ _ ih => exact ⟨h.1, fun results => ih results (h.2 results) (hResult results) hNext⟩

end Program

open Program

/-- How operations change a world and what they answer. -/
def Environment (ε : Type) (Op : Type → Type) (W : Type) : Type 1 :=
  ⦃β : Type⦄ → Op β → W → Except ε β → W → Prop

section

variable {ε : Type} {Op : Type → Type} {W : Type} (env : Environment ε Op W)

/-- One step of a program in its environment. -/
inductive Step : {α : Type} → Program ε Op α → W → Program ε Op α → W → Prop where
  | op {α β : Type} {o : Op β} {next : Except ε β → Program ε Op α} {w v : W} {answer : Except ε β}
      (h : env o w answer v) : Step (.op o next) w (next answer) v
  | pass {α σ β : Type} {body : σ → Program ε Op (σ ⊕ β)} {pass after : Program ε Op (σ ⊕ β)}
      {next : Except ε β → Program ε Op α} {w v : W} (h : Step pass w after v) :
      Step (.iter body pass next) w (.iter body after next) v
  | again {α σ β : Type} {body : σ → Program ε Op (σ ⊕ β)} {s : σ}
      {next : Except ε β → Program ε Op α} {w : W} :
      Step (.iter body (.ret (.inl s)) next) w (.iter body (body s) next) w
  | leave {α σ β : Type} {body : σ → Program ε Op (σ ⊕ β)} {b : β}
      {next : Except ε β → Program ε Op α} {w : W} :
      Step (.iter body (.ret (.inr b)) next) w (next (.ok b)) w
  | break {α σ β : Type} {body : σ → Program ε Op (σ ⊕ β)} {e : ε}
      {next : Except ε β → Program ε Op α} {w : W} :
      Step (.iter body (.throw e) next) w (next (.error e)) w
  | task {α β : Type} {n : Nat} {tasks : Fin n → Program ε Op β}
      {next : Except ε (Fin n → β) → Program ε Op α} {w v : W} (i : Fin n) {after : Program ε Op β}
      (h : Step (tasks i) w after v) : Step (.par tasks next) w (.par (update tasks i after) next) v
  | join {α β : Type} {n : Nat} {results : Fin n → β} {next : Except ε (Fin n → β) → Program ε Op α} {w : W} :
      Step (.par (fun i => .ret (results i)) next) w (next (.ok results)) w
  | reject {α β : Type} {n : Nat} {tasks : Fin n → Program ε Op β}
      {next : Except ε (Fin n → β) → Program ε Op α} {w : W} {i : Fin n} {e : ε} (h : tasks i = .throw e) :
      Step (.par tasks next) w (next (.error e)) w

/-- Runs, from their first step on. -/
inductive Reaches {α : Type} : Program ε Op α → W → Program ε Op α → W → Prop where
  | refl (p : Program ε Op α) (w : W) : Reaches p w p w
  | head {p q r : Program ε Op α} {w v u : W} (first : Step env p w q v) (rest : Reaches q v r u) :
      Reaches p w r u

variable {env} in
theorem Reaches.after {α : Type} {p q : Program ε Op α} {w v u : W} (first : Step env p w q v)
    (rest : ∃ r, Reaches env q v r u) : ∃ r, Reaches env p w r u :=
  rest.imp fun _ hRest => .head first hRest

/-- Along every run `Inv` holds, a returned result satisfies `Q` and a thrown error `E`. -/
def Safe {α : Type} (Inv : W → Prop) (Q : α → W → Prop) (E : ε → W → Prop) (p : Program ε Op α) (w : W) : Prop :=
  ∀ q v, Reaches env p w q v → Inv v ∧ (∀ a, q = .ret a → Q a v) ∧ ∀ e, q = .throw e → E e v

variable {env} {Inv : W → Prop} {α β σ : Type} {Q : α → W → Prop} {E : ε → W → Prop}

theorem Safe.inv {p : Program ε Op α} (h : Safe env Inv Q E p w) : Inv w :=
  (h p w (.refl p w)).1

theorem Safe.step {p q : Program ε Op α} {w v : W} (h : Safe env Inv Q E p w) (hStep : Step env p w q v) :
    Safe env Inv Q E q v :=
  fun r u hReaches => h r u (.head hStep hReaches)

theorem Safe.result {a : α} (h : Safe env Inv Q E (.ret a) w) : Q a w :=
  (h _ w (.refl _ w)).2.1 a rfl

theorem Safe.error {e : ε} (h : Safe env Inv Q E (.throw e) w) : E e w :=
  (h _ w (.refl _ w)).2.2 e rfl

/-- What holds now and after every step holds along the run. -/
theorem Safe.of_steps {p : Program ε Op α} (hInv : Inv w) (hReturn : ∀ a, p = .ret a → Q a w)
    (hThrow : ∀ e, p = .throw e → E e w) (hSteps : ∀ q v, Step env p w q v → Safe env Inv Q E q v) :
    Safe env Inv Q E p w := by
  intro q v hReaches
  cases hReaches with
  | refl => exact ⟨hInv, hReturn, hThrow⟩
  | head first rest => exact hSteps _ _ first _ _ rest

variable {Q' : α → W → Prop}

theorem Safe.mono {Inv' : W → Prop} {E' : ε → W → Prop} {p : Program ε Op α}
    (h : Safe env Inv Q E p w) (hInv : ∀ v, Inv v → Inv' v) (hReturn : ∀ a v, Inv v → Q a v → Q' a v)
    (hThrow : ∀ e v, Inv v → E e v → E' e v) : Safe env Inv' Q' E' p w := by
  intro q v hReaches
  obtain ⟨hHere, hResult, hError⟩ := h q v hReaches
  exact ⟨hInv v hHere, fun a hEnds => hReturn a v hHere (hResult a hEnds), fun e hEnds => hThrow e v hHere (hError e hEnds)⟩

theorem Safe.ret {a : α} (hInv : Inv w) (h : Q a w) : Safe env Inv Q E (.ret a) w := by
  apply Safe.of_steps hInv
  · intro b hSame
    cases hSame
    exact h
  · exact nofun
  · exact nofun

theorem Safe.throw {e : ε} (hInv : Inv w) (h : E e w) : Safe env Inv Q E (.throw e) w := by
  apply Safe.of_steps hInv
  · exact nofun
  · intro f hSame
    cases hSame
    exact h
  · exact nofun

theorem Safe.op {o : Op β} {next : Except ε β → Program ε Op α} (hInv : Inv w)
    (h : ∀ answer v, env o w answer v → Safe env Inv Q E (next answer) v) : Safe env Inv Q E (.op o next) w := by
  apply Safe.of_steps hInv
  · exact nofun
  · exact nofun
  · intro q v hStep
    cases hStep with
    | op hAnswer => exact h _ _ hAnswer

theorem Safe.perform {o : Op α} (hInv : Inv w)
    (h : ∀ answer v, env o w answer v → Inv v ∧ (∀ a, answer = .ok a → Q a v) ∧ ∀ e, answer = .error e → E e v) :
    Safe env Inv Q E (perform o) w := by
  apply Safe.op hInv
  intro answer v hAnswer
  obtain ⟨hAfter, hOk, hError⟩ := h answer v hAnswer
  cases answer with
  | ok a => exact .ret hAfter (hOk a rfl)
  | error e => exact .throw hAfter (hError e rfl)

theorem Safe.handle {Q : β → W → Prop} {p : Program ε Op α} {onReturn : α → Program ε Op β}
    (h : Safe env Inv (fun a v => Safe env Inv Q E (onReturn a) v) (fun e v => Safe env Inv Q E (onThrow e) v) p w) :
    Safe env Inv Q E (p.handle onReturn onThrow) w := by
  intro q v hReaches
  generalize hStart : p.handle onReturn onThrow = start at hReaches
  induction hReaches generalizing p with
  | refl start w =>
    cases p with
    | ret a => exact hStart ▸ h.result _ _ (.refl _ _)
    | throw e => exact hStart ▸ h.error _ _ (.refl _ _)
    | _ =>
      subst hStart
      exact ⟨h.inv, nofun, nofun⟩
  | head first rest ih =>
    cases p with
    | ret a =>
      subst hStart
      exact h.result _ _ (.head first rest)
    | throw e =>
      subst hStart
      exact h.error _ _ (.head first rest)
    | op o next =>
      subst hStart
      cases first with
      | op hAnswer => exact ih (h.step (.op hAnswer)) rfl
    | iter body pass next =>
      subst hStart
      cases first with
      | pass hPass => exact ih (h.step (.pass hPass)) rfl
      | again => exact ih (h.step .again) rfl
      | leave => exact ih (h.step .leave) rfl
      | «break» => exact ih (h.step .break) rfl
    | par tasks next =>
      subst hStart
      cases first with
      | task i hTask => exact ih (h.step (.task i hTask)) rfl
      | join => exact ih (h.step .join) rfl
      | reject hTask => exact ih (h.step (.reject hTask)) rfl

variable {f : α → Program ε Op β}

theorem Safe.bind {Q : β → W → Prop} {p : Program ε Op α}
    (h : Safe env Inv (fun a v => Safe env Inv Q E (f a) v) E p w) : Safe env Inv Q E (p >>= f) w :=
  Safe.handle (h.mono (fun _ hInv => hInv) (fun _ _ _ hNext => hNext) fun _ _ hInv hError => .throw hInv hError)

/-- The rule of sequencing, by what holds in between. -/
theorem Safe.andThen {Q : β → W → Prop} {p : Program ε Op α} {w : W}
    (h : Safe env Inv Q' E p w) (hNext : ∀ a v, Inv v → Q' a v → Safe env Inv Q E (f a) v) : Safe env Inv Q E (p >>= f) w :=
  Safe.bind (h.mono (fun _ hInv => hInv) hNext fun _ _ _ hError => hError)

theorem Safe.tryCatch {p : Program ε Op α} {onThrow : ε → Program ε Op α}
    (h : Safe env Inv Q (fun e v => Safe env Inv Q E (onThrow e) v) p w) :
    Safe env Inv Q E (tryCatch p onThrow) w :=
  Safe.handle (h.mono (fun _ hInv => hInv) (fun _ _ hInv hResult => .ret hInv hResult) fun _ _ _ hNext => hNext)

theorem Safe.loop {Start : σ → W → Prop} {Q : β → W → Prop} {body : σ → Program ε Op (σ ⊕ β)} {start : σ}
    (hStart : Start start w)
    (hBody : ∀ s v, Start s v → Safe env Inv (fun r u => r.elim (fun s => Start s u) fun b => Q b u) E (body s) v) :
    Safe env Inv Q E (loop body start) w := by
  intro q v hReaches
  have hPass := hBody start w hStart
  rw [Program.loop] at hReaches
  generalize hProgram : Program.iter body (body start) settle = program at hReaches
  generalize hFirst : body start = pass at hProgram hPass
  clear hFirst hStart
  induction hReaches generalizing pass with
  | refl =>
    subst hProgram
    exact ⟨hPass.inv, nofun, nofun⟩
  | head first rest ih =>
    subst hProgram
    cases first with
    | pass hStep => exact ih _ rfl (hPass.step hStep)
    | again => exact ih _ rfl (hBody _ _ hPass.result)
    | leave => exact Safe.ret hPass.inv hPass.result _ _ rest
    | «break» => exact Safe.throw hPass.inv hPass.error _ _ rest

variable {P : {γ : Type} → Op γ → Prop}

/-- What one step leaves uses the same operations, and at most one of them changed the world. -/
theorem Step.uses {p q : Program ε Op α} {w v : W} (h : Step env p w q v) (hUses : p.Uses P) :
    q.Uses P ∧ (v = w ∨ ∃ (γ : Type) (o : Op γ) (answer : Except ε γ), P o ∧ env o w answer v) := by
  induction h with
  | op hAnswer => exact ⟨hUses.2 _, .inr ⟨_, _, _, hUses.1, hAnswer⟩⟩
  | pass _ ih =>
    obtain ⟨hPass, hWorld⟩ := ih hUses.2.1
    exact ⟨⟨hUses.1, hPass, hUses.2.2⟩, hWorld⟩
  | again => exact ⟨⟨hUses.1, hUses.1 _, hUses.2.2⟩, .inl rfl⟩
  | leave => exact ⟨hUses.2.2 _, .inl rfl⟩
  | «break» => exact ⟨hUses.2.2 _, .inl rfl⟩
  | task i _ ih =>
    obtain ⟨hTask, hWorld⟩ := ih (hUses.1 i)
    refine ⟨⟨fun j => ?_, hUses.2⟩, hWorld⟩
    by_cases hSame : j = i
    · subst hSame
      rwa [update_self]
    · rw [update_of_ne hSame]
      exact hUses.1 j
  | join => exact ⟨hUses.2 _, .inl rfl⟩
  | reject _ => exact ⟨hUses.2 _, .inl rfl⟩

/-- What every operation of a program keeps holds along its runs. -/
theorem Safe.of_uses {p : Program ε Op α} (hUses : p.Uses P) (hInv : Inv w)
    (hKeeps : ∀ {γ : Type} (o : Op γ) w answer v, P o → Inv w → env o w answer v → Inv v) :
    Safe env Inv (fun _ => Inv) (fun _ => Inv) p w := by
  intro q v hReaches
  induction hReaches with
  | refl => exact ⟨hInv, fun _ _ => hInv, fun _ _ => hInv⟩
  | head first _ ih =>
    obtain ⟨hNext, hWorld⟩ := first.uses hUses
    apply ih hNext
    rcases hWorld with rfl | ⟨γ, o, answer, hOp, hAnswer⟩
    · exact hInv
    · exact hKeeps o _ answer _ hOp hInv hAnswer

variable (env Inv)

/-- The environment as a task sees it whose fellows keep `Inv` and change the world only as
`Rely` allows. -/
def Amid (Rely : W → W → Prop) : Environment ε Op W :=
  fun _ o w answer v => ∃ u, Rely w u ∧ Inv u ∧ env o u answer v

variable {env Inv}

/-- A step of a task, as a step from the world its own last step left. -/
theorem Step.amid {Rely : W → W → Prop} {p q : Program ε Op α} {w v u : W} (h : Step env p w q v) (hInv : Inv w)
    (hRely : Rely u w) : ∃ x, Step (Amid env Inv Rely) p u q x ∧ (v = x ∨ v = w ∧ x = u) := by
  induction h with
  | op hAnswer => exact ⟨_, .op ⟨_, hRely, hInv, hAnswer⟩, .inl rfl⟩
  | pass _ ih =>
    obtain ⟨x, hStep, hWorld⟩ := ih hInv hRely
    exact ⟨x, .pass hStep, hWorld⟩
  | again => exact ⟨u, .again, .inr ⟨rfl, rfl⟩⟩
  | leave => exact ⟨u, .leave, .inr ⟨rfl, rfl⟩⟩
  | «break» => exact ⟨u, .break, .inr ⟨rfl, rfl⟩⟩
  | task i _ ih =>
    obtain ⟨x, hStep, hWorld⟩ := ih hInv hRely
    exact ⟨x, .task i hStep, hWorld⟩
  | join => exact ⟨u, .join, .inr ⟨rfl, rfl⟩⟩
  | reject hTask => exact ⟨u, .reject hTask, .inr ⟨rfl, rfl⟩⟩

/-- The rule of tasks that rely on each other: what the operations of one may change is what
the others rely on, and what a task has come to is stable under that. -/
theorem Safe.par_amid {n : Nat} {tasks : Fin n → Program ε Op β} {next : Except ε (Fin n → β) → Program ε Op α}
    {P : Fin n → {γ : Type} → Op γ → Prop} {G : Fin n → W → W → Prop} {R : Fin n → β → W → Prop} {S : ε → Prop}
    (hRefl : ∀ i u, G i u u) (hTrans : ∀ i x y z, G i x y → G i y z → G i x z)
    (hStable : ∀ i b u v, R i b u → G i u v → R i b v) (hUses : ∀ i, (tasks i).Uses (P i))
    (hGuarantee : ∀ i j, i ≠ j → ∀ {γ : Type} (o : Op γ) u answer v, P i o → Inv u → env o u answer v → G j u v)
    (hInv : Inv w) (hTasks : ∀ i, Safe (Amid env Inv (G i)) Inv (R i) (fun e _ => S e) (tasks i) w)
    (hJoin : ∀ results v, Inv v → (∀ i, R i (results i) v) → Safe env Inv Q E (next (.ok results)) v)
    (hReject : ∀ e v, Inv v → S e → Safe env Inv Q E (next (.error e)) v) :
    Safe env Inv Q E (.par tasks next) w := by
  intro q v hReaches
  -- Each task is safe in the world its last step left, and relied on what happened since.
  have hApart : ∀ i, ∃ u, G i u w ∧ Safe (Amid env Inv (G i)) Inv (R i) (fun e _ => S e) (tasks i) u :=
    fun i => ⟨w, hRefl i w, hTasks i⟩
  clear hTasks
  generalize hProgram : Program.par tasks next = program at hReaches
  induction hReaches generalizing tasks with
  | refl =>
    subst hProgram
    exact ⟨hInv, nofun, nofun⟩
  | head first rest ih =>
    subst hProgram
    cases first with
    | task i hStep =>
      obtain ⟨hNextUses, hChange⟩ := hStep.uses (hUses i)
      obtain ⟨u, hRely, hTask⟩ := hApart i
      obtain ⟨x, hAmid, hWorld⟩ := hStep.amid hInv hRely
      have hAfter := hTask.step hAmid
      have hNext : Inv _ := hWorld.elim (fun hSame => hSame ▸ hAfter.inv) fun hSame => hSame.1 ▸ hInv
      have hOwn : G i x _ := hWorld.elim (fun hSame => hSame ▸ hRefl i _) fun hSame => hSame.1 ▸ hSame.2 ▸ hRely
      refine ih (fun j => ?_) hNext (fun j => ?_) rfl
      · by_cases hSame : j = i
        · subst hSame
          rwa [update_self]
        · rw [update_of_ne hSame]
          exact hUses j
      · by_cases hSame : j = i
        · subst hSame
          exact ⟨x, hOwn, by rwa [update_self]⟩
        · obtain ⟨y, hOther, hSafe⟩ := hApart j
          refine ⟨y, ?_, by rwa [update_of_ne hSame]⟩
          rcases hChange with hSteady | ⟨γ, o, answer, hOp, hAnswer⟩
          · rwa [hSteady]
          · exact hTrans j _ _ _ hOther (hGuarantee i j (Ne.symm hSame) o _ answer _ hOp hInv hAnswer)
    | join =>
      refine hJoin _ _ hInv (fun i => ?_) _ _ rest
      obtain ⟨u, hRely, hTask⟩ := hApart i
      exact hStable i _ _ _ hTask.result hRely
    | @reject _ _ _ _ _ _ i e hTask =>
      obtain ⟨u, hRely, hSafe⟩ := hApart i
      rw [hTask] at hSafe
      exact hReject e _ hInv hSafe.error _ _ rest

/-- `Promise.all` of tasks for items that rely on each other. -/
theorem Safe.all_amid {ι : Type} {items : List ι} {task : ι → Program ε Op β} {P : ι → {γ : Type} → Op γ → Prop}
    {G : ι → W → W → Prop} {R : ι → β → W → Prop} {S : ε → Prop} {Q : List β → W → Prop}
    (hRefl : ∀ x u, G x u u) (hTrans : ∀ i x y z, G i x y → G i y z → G i x z)
    (hStable : ∀ x b u v, R x b u → G x u v → R x b v) (hUses : ∀ x ∈ items, (task x).Uses (P x))
    (hGuarantee : items.Pairwise fun x y =>
      (∀ {γ : Type} (o : Op γ) u answer v, P x o → Inv u → env o u answer v → G y u v) ∧
        ∀ {γ : Type} (o : Op γ) u answer v, P y o → Inv u → env o u answer v → G x u v)
    (hInv : Inv w) (hTasks : ∀ x ∈ items, Safe (Amid env Inv (G x)) Inv (R x) (fun e _ => S e) (task x) w)
    (hJoin : ∀ results v, Inv v → List.Forall₂ (fun x b => R x b v) items results → Q results v)
    (hReject : ∀ e v, Inv v → S e → E e v) : Safe env Inv Q E (all (items.map task)) w := by
  have hLength : (items.map task).length = items.length := List.length_map _
  have hGet : ∀ i : Fin (items.map task).length, (items.map task).get i = task (items.get (i.cast hLength)) := by
    intro i
    simp
  apply Safe.par_amid (P := fun i => P (items.get (i.cast hLength))) (G := fun i => G (items.get (i.cast hLength)))
    (R := fun i => R (items.get (i.cast hLength))) (S := S) (fun i => hRefl _) (fun i => hTrans _) (fun i => hStable _)
  · intro i
    rw [hGet]
    exact hUses _ (List.get_mem _ _)
  · intro i j hApart
    rw [List.pairwise_iff_getElem] at hGuarantee
    rcases Nat.lt_or_gt_of_ne fun hSame => hApart (Fin.ext hSame) with hLt | hLt
    · exact (hGuarantee i j (i.cast hLength).isLt (j.cast hLength).isLt hLt).1
    · exact (hGuarantee j i (j.cast hLength).isLt (i.cast hLength).isLt hLt).2
  · exact hInv
  · intro i
    rw [hGet]
    exact hTasks _ (List.get_mem _ _)
  · intro results v hAfter hResults
    apply Safe.ret hAfter
    apply hJoin _ v hAfter
    rw [List.forall₂_iff_get]
    refine ⟨by rw [List.length_ofFn, hLength], fun i hFirst hSecond => ?_⟩
    have hResult := hResults ⟨i, hLength ▸ hFirst⟩
    simpa using hResult
  · exact fun e v hAfter hError => .throw hAfter (hReject e v hAfter hError)

end

end OctoberHarness.Effects
