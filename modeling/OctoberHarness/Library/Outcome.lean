import Mathlib.Tactic

/-! Computations that may fail, one after the other. -/
namespace OctoberHarness.Outcome

open List

variable {ε α β : Type}

theorem bind_eq_ok {first : Except ε α} {next : α → Except ε β} {result : β} :
    (first >>= next) = .ok result ↔ ∃ value, first = .ok value ∧ next value = .ok result := by
  cases first with
  | error error => simp [bind, Except.bind]
  | ok value => simp [bind, Except.bind]

/-- A list is mapped when every element is, and to their values. -/
theorem mapM_eq_ok {step : α → Except ε β} (value : α → β) {list : List α}
    (hValue : ∀ x ∈ list, ∀ y, step x = .ok y → y = value x) {result : List β} :
    list.mapM step = .ok result ↔ (∀ x ∈ list, ∃ y, step x = .ok y) ∧ result = list.map value := by
  induction list generalizing result with
  | nil => simp [pure, Except.pure, eq_comm]
  | cons head tail ih =>
    have hTail := fun {result} => @ih (fun x hx => hValue x (mem_cons_of_mem _ hx)) result
    simp only [mapM_cons, bind_eq_ok, hTail, pure, Except.pure, Except.ok.injEq]
    constructor
    · rintro ⟨first, hFirst, rest, ⟨hRest, rfl⟩, rfl⟩
      refine ⟨forall_mem_cons.mpr ⟨⟨first, hFirst⟩, hRest⟩, ?_⟩
      rw [map_cons, hValue head mem_cons_self first hFirst]
    · rintro ⟨hAll, rfl⟩
      obtain ⟨⟨first, hFirst⟩, hRest⟩ := forall_mem_cons.mp hAll
      refine ⟨first, hFirst, _, ⟨hRest, rfl⟩, ?_⟩
      rw [map_cons, hValue head mem_cons_self first hFirst]

/-- A loop of checks passes when every check does. -/
theorem forM_eq_ok {check : α → Except ε Unit} {list : List α} :
    list.forM check = .ok () ↔ ∀ x ∈ list, check x = .ok () := by
  induction list with
  | nil => simp [pure, Except.pure]
  | cons head tail ih =>
    rw [forall_mem_cons, ← ih]
    change (check head >>= fun _ => tail.forM check) = .ok () ↔ _
    rw [bind_eq_ok]
    constructor
    · rintro ⟨⟨⟩, hHead, hTail⟩
      exact ⟨hHead, hTail⟩
    · rintro ⟨hHead, hTail⟩
      exact ⟨(), hHead, hTail⟩

/-- A run that succeeds keeps what each of its steps keeps of the elements so far. -/
theorem foldlM_invariant {step : β → α → Except ε β} (inv : List α → β → Prop)
    (hStep : ∀ done state x next, inv done state → step state x = .ok next → inv (done ++ [x]) next)
    {list done : List α} {start last : β} (hStart : inv done start) (hRun : list.foldlM step start = .ok last) :
    inv (done ++ list) last := by
  induction list generalizing done start with
  | nil =>
    rw [foldlM_nil, pure, Applicative.toPure] at hRun
    rw [append_nil, ← Except.ok.inj hRun]
    exact hStart
  | cons head tail ih =>
    rw [foldlM_cons, bind_eq_ok] at hRun
    obtain ⟨next, hNext, hRest⟩ := hRun
    have hEnd := ih (hStep done start head next hStart hNext) hRest
    rwa [append_assoc] at hEnd

end OctoberHarness.Outcome
