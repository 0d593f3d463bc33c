import Mathlib.Data.List.Induction

/-! Histories that grow at their end, and rules on what may come after what. -/
namespace OctoberHarness.Trace

open List

variable {α : Type*}

/-- Every entry was admitted by what came before it. -/
def Lawful (Admits : List α → α → Prop) (log : List α) : Prop :=
  ∀ before entry after, log = before ++ entry :: after → Admits before entry

theorem lawful_nil (Admits : List α → α → Prop) : Lawful Admits [] := by
  intro before entry after h
  simp at h

variable {Admits : List α → α → Prop} {log : List α}

theorem Lawful.snoc (hLog : Lawful Admits log) {entry : α} (hEntry : Admits log entry) : Lawful Admits (log ++ [entry]) := by
  intro before other after h
  induction after using reverseRecOn with
  | nil =>
    obtain ⟨rfl, hSame⟩ := append_inj' h rfl
    cases hSame
    exact hEntry
  | append_singleton rest last _ =>
    rw [← cons_append, ← append_assoc] at h
    exact hLog before other rest (append_inj' h rfl).1

/-- Entries that are admitted whatever came right before them. -/
theorem Lawful.append (hLog : Lawful Admits log) {added : List α}
    (hAdded : ∀ entry ∈ added, ∀ between, Admits (log ++ between) entry) : Lawful Admits (log ++ added) := by
  induction added using reverseRecOn with
  | nil => rwa [append_nil]
  | append_singleton rest last ih =>
    rw [← append_assoc]
    apply Lawful.snoc
    · exact ih fun entry hEntry => hAdded entry (mem_append_left _ hEntry)
    · exact hAdded last (mem_append_right _ (mem_singleton_self _)) rest

theorem Lawful.of_append {later : List α} (h : Lawful Admits (log ++ later)) : Lawful Admits log := by
  intro before entry after hLog
  exact h before entry (after ++ later) (by rw [hLog, append_assoc, cons_append])

end OctoberHarness.Trace
