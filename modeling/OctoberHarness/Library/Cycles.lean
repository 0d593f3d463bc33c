import Mathlib.Tactic

/-! Relations without cycles, and which added edges close one. -/
namespace Cycles

open Relation

variable {α : Type*} {R R' : α → α → Prop}

def Acyclic (R : α → α → Prop) : Prop := ∀ x, ¬ TransGen R x x

theorem Acyclic.mono (h : Acyclic R) (hSub : ∀ a b, R' a b → R a b) : Acyclic R' := by
  intro x hCycle
  exact h x (TransGen.mono hSub _ _ hCycle)

theorem Acyclic.of_rank (rank : α → Nat) (hRank : ∀ a b, R a b → rank a < rank b) : Acyclic R := by
  have hPath : ∀ {a b}, TransGen R a b → rank a < rank b := by
    intro a b hPath
    induction hPath with
    | single hStep => exact hRank _ _ hStep
    | tail _ hStep ih => exact ih.trans (hRank _ _ hStep)
  intro x hCycle
  exact (hPath hCycle).false

/-! A new node that nothing leaves. -/

section Sink

variable {sink : α} (hOld : ∀ a b, R' a b → b ≠ sink → R a b) (hSink : ∀ b, ¬ R' sink b)

include hOld hSink

/-- Paths that do not end at the sink were there before. -/
theorem transGen_of_sink {a b : α} (hPath : TransGen R' a b) (hNe : b ≠ sink) : TransGen R a b := by
  induction hPath with
  | single hStep => exact .single (hOld _ _ hStep hNe)
  | @tail middle last _ hStep ih =>
    have hMiddle : middle ≠ sink := by
      rintro rfl
      exact hSink _ hStep
    exact (ih hMiddle).tail (hOld _ _ hStep hNe)

theorem Acyclic.of_sink (h : Acyclic R) : Acyclic R' := by
  intro x hCycle
  have hNe : x ≠ sink := by
    rintro rfl
    obtain ⟨y, hStep, _⟩ := TransGen.head'_iff.mp hCycle
    exact hSink y hStep
  exact h x (transGen_of_sink hOld hSink hCycle hNe)

end Sink

/-! New edges that leave one node. -/

/-- A path to a node comes to it for a first time. -/
theorem reflTransGen_avoiding {a b : α} (hPath : ReflTransGen R a b) :
    ReflTransGen (fun x y => x ≠ b ∧ R x y) a b := by
  induction hPath using ReflTransGen.head_induction_on with
  | refl => exact .refl
  | @head first next hStep _ ih =>
    by_cases hEnd : first = b
    · rw [hEnd]
    · exact .head ⟨hEnd, hStep⟩ ih

variable {node : α} {added : α → Prop}

/-- New edges close no cycle when their ends do not lead back. -/
theorem Acyclic.add (h : Acyclic R) (hEdges : ∀ a b, R' a b → R a b ∨ a = node ∧ added b)
    (hBack : ∀ b, added b → ¬ ReflTransGen R b node) : Acyclic R' := by
  -- Up to where it first leaves by a new edge, a path is an old one.
  have hSplit : ∀ {a b}, TransGen R' a b → TransGen R a b ∨ ReflTransGen R a node ∧ ∃ c, added c ∧ ReflTransGen R' c b := by
    intro a b hPath
    induction hPath using TransGen.head_induction_on with
    | single hStep =>
      rcases hEdges _ _ hStep with hOld | ⟨rfl, hNew⟩
      · exact .inl (.single hOld)
      · exact .inr ⟨.refl, _, hNew, .refl⟩
    | head hStep hRest ih =>
      rcases hEdges _ _ hStep with hOld | ⟨rfl, hNew⟩
      · rcases ih with hTail | ⟨hTo, c, hNew, hFrom⟩
        · exact .inl (.head hOld hTail)
        · exact .inr ⟨.head hOld hTo, c, hNew, hFrom⟩
      · exact .inr ⟨.refl, _, hNew, hRest.to_reflTransGen⟩
  intro x hCycle
  rcases hSplit hCycle with hOld | ⟨hTo, c, hNew, hFrom⟩
  · exact h x hOld
  · rcases reflTransGen_iff_eq_or_transGen.mp hFrom with rfl | hFromPath
    · exact hBack _ hNew hTo
    · rcases hSplit hFromPath with hOld | ⟨hBackTo, _⟩
      · exact hBack c hNew (hOld.to_reflTransGen.trans hTo)
      · exact hBack c hNew hBackTo

/-- A new edge whose end leads back closes a cycle, if the others are kept. -/
theorem not_acyclic_add (hKept : ∀ a b, a ≠ node → R a b → R' a b) (hAdded : ∀ b, added b → R' node b)
    {b : α} (hNew : added b) (hPath : ReflTransGen R b node) : ¬ Acyclic R' := by
  intro h
  have hFirst := reflTransGen_avoiding hPath
  have hBack : ReflTransGen R' b node := ReflTransGen.mono (fun x y hStep => hKept x y hStep.1 hStep.2) _ _ hFirst
  exact h node (TransGen.head' (hAdded b hNew) hBack)

end Cycles
