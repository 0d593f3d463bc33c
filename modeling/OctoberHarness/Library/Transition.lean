import Mathlib.Tactic

/-! Runs of a system that takes labelled steps, and the rules for what holds
along all of them. -/
namespace Transition

variable {σ α : Type*}

/-- The state after a list of actions, if each of them is enabled in turn. -/
def run (step : σ → α → Option σ) (start : σ) (actions : List α) : Option σ :=
  actions.foldlM step start

theorem run_cons (step : σ → α → Option σ) (start : σ) (action : α) (rest : List α) :
    run step start (action :: rest) = (step start action).bind fun next => run step next rest := rfl

variable {step : σ → α → Option σ}

/-- A run that takes a first step goes on from the state that step leads to. -/
theorem run_cons_eq_some {start finish : σ} {action : α} {rest : List α} :
    run step start (action :: rest) = some finish ↔
      ∃ next, step start action = some next ∧ run step next rest = some finish := by
  rw [run_cons, Option.bind_eq_some_iff]

/-- What every allowed step keeps, every run of allowed steps keeps. -/
theorem invariant {step : σ → α → Option σ} {Inv : σ → Prop} {allowed : α → Prop}
    (hStep : ∀ state action next, allowed action → step state action = some next →
      Inv state → Inv next)
    {actions : List α} {start finish : σ} (hAllowed : ∀ action ∈ actions, allowed action)
    (hRun : run step start actions = some finish) (hStart : Inv start) : Inv finish := by
  induction actions generalizing start with
  | nil =>
    obtain rfl := Option.some.inj hRun
    exact hStart
  | cons action rest ih =>
    obtain ⟨next, hFirst, hRest⟩ := run_cons_eq_some.mp hRun
    exact ih (fun a ha => hAllowed a (List.mem_cons_of_mem _ ha)) hRest
      (hStep start action next (hAllowed action List.mem_cons_self) hFirst hStart)

/-- Every action of a run meets a condition in the state it is taken in. -/
def Along (step : σ → α → Option σ) (Meets : σ → α → Prop) : σ → List α → Prop
  | _, [] => True
  | state, action :: rest => Meets state action ∧ ∀ next, step state action = some next → Along step Meets next rest

theorem along_cons {Meets : σ → α → Prop} {state next : σ} {action : α} {rest : List α}
    (hMeets : Meets state action) (hStep : step state action = some next) (hRest : Along step Meets next rest) :
    Along step Meets state (action :: rest) := by
  refine ⟨hMeets, fun other hOther => ?_⟩
  rw [hStep] at hOther
  exact Option.some.inj hOther ▸ hRest

/-- What every step that meets the condition keeps, every run of such steps
keeps. -/
theorem invariant_along {Inv : σ → Prop} {Meets : σ → α → Prop}
    (hStep : ∀ state action next, Meets state action → step state action = some next → Inv state → Inv next)
    {actions : List α} {start finish : σ} (hAlong : Along step Meets start actions)
    (hRun : run step start actions = some finish) (hStart : Inv start) : Inv finish := by
  induction actions generalizing start with
  | nil =>
    obtain rfl := Option.some.inj hRun
    exact hStart
  | cons action rest ih =>
    obtain ⟨next, hFirst, hRest⟩ := run_cons_eq_some.mp hRun
    exact ih (hAlong.2 next hFirst) hRest (hStep start action next hAlong.1 hFirst hStart)

/-- A relation between states that every allowed step respects holds between
the ends of a run. -/
theorem relation {R : σ → σ → Prop} {allowed : α → Prop}
    (hRefl : ∀ state, R state state) (hTrans : ∀ a b c, R a b → R b c → R a c)
    (hStep : ∀ state action next, allowed action → step state action = some next → R state next)
    {actions : List α} {start finish : σ} (hAllowed : ∀ action ∈ actions, allowed action)
    (hRun : run step start actions = some finish) : R start finish := by
  refine invariant (fun state action next hAction hNext hState => ?_) hAllowed hRun (hRefl start)
  exact hTrans start state next hState (hStep state action next hAction hNext)

/-- When every step of some kind uses up work, there are no more of them than
there is work. -/
theorem length_le_work {Inv : σ → Prop} {own : α → Prop} (work : σ → Nat)
    (hInv : ∀ state action next, own action → step state action = some next → Inv state → Inv next)
    (hWork : ∀ state action next, own action → step state action = some next → Inv state →
      work next < work state)
    {actions : List α} {start finish : σ} (hOwn : ∀ action ∈ actions, own action)
    (hRun : run step start actions = some finish) (hStart : Inv start) :
    actions.length + work finish ≤ work start := by
  induction actions generalizing start with
  | nil =>
    obtain rfl := Option.some.inj hRun
    simp
  | cons action rest ih =>
    obtain ⟨next, hFirst, hRest⟩ := run_cons_eq_some.mp hRun
    have hAction := hOwn action List.mem_cons_self
    have hTail := ih (fun a ha => hOwn a (List.mem_cons_of_mem _ ha)) hRest
      (hInv start action next hAction hFirst hStart)
    have hLess := hWork start action next hAction hFirst hStart
    rw [List.length_cons]
    omega

end Transition
