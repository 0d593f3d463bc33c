import Mathlib.Tactic
import Mathlib.Order.WithBot
import Mathlib.Data.List.Sort

/-! Bounds of ranges of ids: integers, and negative infinity below them. Lists in the
order of their ids, and their merges. -/

/-- An integer or negative infinity. -/
def Bound := WithBot Int
deriving DecidableEq

namespace Bound

instance : LinearOrder Bound where
  le a b := @LE.le (WithBot Int) _ a b
  lt a b := @LT.lt (WithBot Int) _ a b
  le_refl := le_refl (α := WithBot Int)
  le_trans _ _ _ := le_trans (α := WithBot Int)
  lt_iff_le_not_ge _ _ := lt_iff_le_not_ge (α := WithBot Int)
  le_antisymm _ _ := le_antisymm (α := WithBot Int)
  le_total := le_total (α := WithBot Int)
  toDecidableLE := @WithBot.decidableLE Int _ _

instance : OrderBot Bound where
  bot := (⊥ : WithBot Int)
  bot_le _ := bot_le (α := WithBot Int)

def of (id : Nat) : Bound :=
  ((id : Int) : WithBot Int)

/-- Negative infinity stays what it is. -/
def succ : Bound → Bound :=
  WithBot.map (· + 1)

def pred : Bound → Bound :=
  WithBot.map (· - 1)

@[simp] theorem of_lt_of {a b : Nat} : of a < of b ↔ a < b :=
  (WithBot.coe_lt_coe (α := Int)).trans Int.ofNat_lt

@[simp] theorem of_le_of {a b : Nat} : of a ≤ of b ↔ a ≤ b :=
  (WithBot.coe_le_coe (α := Int)).trans Int.ofNat_le

@[simp] theorem of_ne_bot (a : Nat) : of a ≠ ⊥ :=
  WithBot.coe_ne_bot

@[simp] theorem bot_lt_of (a : Nat) : ⊥ < of a :=
  bot_lt_iff_ne_bot.mpr (of_ne_bot a)

@[simp] theorem succ_bot : succ ⊥ = ⊥ :=
  rfl

/-- A bound is negative infinity or an integer. -/
theorem cases_on (a : Bound) : a = ⊥ ∨ ∃ n : Int, a = (n : WithBot Int) := by
  cases a using WithBot.recBotCoe with
  | bot => exact Or.inl rfl
  | coe n => exact Or.inr ⟨n, rfl⟩

variable {a b : Bound}

theorem lt_succ (hBound : b ≠ ⊥) : a < b.succ ↔ a ≤ b := by
  obtain rfl | ⟨n, rfl⟩ := cases_on b
  · exact absurd rfl hBound
  · obtain rfl | ⟨m, rfl⟩ := cases_on a
    · exact ⟨fun _ => bot_le, fun _ => WithBot.bot_lt_coe (n + 1)⟩
    · exact (WithBot.coe_lt_coe (α := Int)).trans (Int.lt_add_one_iff.trans (WithBot.coe_le_coe (α := Int)).symm)

theorem succ_le (hBound : a ≠ ⊥) : a.succ ≤ b ↔ a < b := by
  obtain rfl | ⟨m, rfl⟩ := cases_on a
  · exact absurd rfl hBound
  · obtain rfl | ⟨n, rfl⟩ := cases_on b
    · exact ⟨fun h => absurd h (not_le_of_gt (WithBot.bot_lt_coe (m + 1))), fun h => absurd h (not_lt_of_ge bot_le)⟩
    · exact (WithBot.coe_le_coe (α := Int)).trans (Int.add_one_le_iff.trans (WithBot.coe_lt_coe (α := Int)).symm)

theorem succ_eq_bot : a.succ = ⊥ ↔ a = ⊥ := by
  obtain rfl | ⟨m, rfl⟩ := cases_on a
  · simp
  · exact iff_of_false WithBot.coe_ne_bot WithBot.coe_ne_bot

@[simp] theorem pred_succ (a : Bound) : a.succ.pred = a := by
  obtain rfl | ⟨m, rfl⟩ := cases_on a
  · rfl
  · exact congrArg (fun n : Int => (n : WithBot Int)) (Int.add_sub_cancel m 1)

@[simp] theorem succ_pred (a : Bound) : a.pred.succ = a := by
  obtain rfl | ⟨m, rfl⟩ := cases_on a
  · rfl
  · exact congrArg (fun n : Int => (n : WithBot Int)) (Int.sub_add_cancel m 1)

theorem succ_le_succ : a.succ ≤ b.succ ↔ a ≤ b := by
  by_cases hBound : b = ⊥
  · rw [hBound, succ_bot, le_bot_iff, le_bot_iff, succ_eq_bot]
  · by_cases hLeft : a = ⊥
    · simp [hLeft]
    · rw [succ_le hLeft, lt_succ hBound]

theorem pred_eq_bot : a.pred = ⊥ ↔ a = ⊥ := by
  rw [← succ_eq_bot, succ_pred]

theorem le_pred (hBound : b ≠ ⊥) : a ≤ b.pred ↔ a < b := by
  rw [← lt_succ (mt pred_eq_bot.mp hBound), succ_pred]

theorem pred_lt (hBound : a ≠ ⊥) : a.pred < b ↔ a ≤ b := by
  rw [← succ_le (mt pred_eq_bot.mp hBound), succ_pred]

end Bound

namespace SortedBy

variable {α : Type*} {key : α → Nat}

/-- Merging two ordered lists without common ids keeps the order. -/
theorem merge {left right : List α} (hLeft : left.Pairwise fun a b => key a < key b)
    (hRight : right.Pairwise fun a b => key a < key b) (hApart : ∀ a ∈ left, ∀ b ∈ right, key a ≠ key b) :
    (left.merge right fun a b => decide (key a < key b)).Pairwise fun a b => key a < key b := by
  induction left generalizing right with
  | nil => simpa using hRight
  | cons a left ihLeft =>
    induction right with
    | nil => simpa using hLeft
    | cons b right ihRight =>
      rw [List.pairwise_cons] at hLeft hRight
      have hNe := hApart a List.mem_cons_self b List.mem_cons_self
      by_cases hLess : key a < key b
      · rw [List.cons_merge_cons_pos _ _ _ (by simpa using hLess), List.pairwise_cons]
        refine ⟨fun c hc => ?_, ihLeft hLeft.2 (List.pairwise_cons.mpr hRight)
          fun c hc => hApart c (List.mem_cons_of_mem _ hc)⟩
        rcases List.mem_merge.mp hc with hc | hc
        · exact hLeft.1 c hc
        · rcases List.mem_cons.mp hc with rfl | hc
          · exact hLess
          · exact lt_trans hLess (hRight.1 c hc)
      · rw [List.cons_merge_cons_neg _ _ _ (by simpa using hLess), List.pairwise_cons]
        refine ⟨fun c hc => ?_, ihRight hRight.2
          fun c hc d hd => hApart c hc d (List.mem_cons_of_mem _ hd)⟩
        have hOver : key b < key a := by omega
        rcases List.mem_merge.mp hc with hc | hc
        · rcases List.mem_cons.mp hc with rfl | hc
          · exact hOver
          · exact lt_trans hOver (hLeft.1 c hc)
        · exact hRight.1 c hc

end SortedBy
