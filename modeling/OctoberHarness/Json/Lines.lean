import OctoberHarness.Json.RoundTrip

/-! The JSON text of a value has no control characters, so it stands on one line. -/
namespace OctoberHarness.JsonText

open JsonValue List

/-- No unit is a control character. -/
def Printable (s : JsString) : Prop :=
  ∀ unit ∈ s, 32 ≤ unit.toNat

variable {s : JsString}

theorem printable_of_all (h : (s.all fun unit => 32 ≤ unit.toNat) = true) : Printable s :=
  fun unit hUnit => of_decide_eq_true (List.all_eq_true.mp h unit hUnit)

theorem printable_append {t : JsString} (hs : Printable s) (ht : Printable t) : Printable (s ++ t) := by
  intro unit hUnit
  rcases List.mem_append.mp hUnit with hFirst | hSecond
  · exact hs unit hFirst
  · exact ht unit hSecond

theorem printable_cons {unit : UInt16} (hUnit : 32 ≤ unit.toNat) (hs : Printable s) :
    Printable (unit :: s) := by
  intro other hOther
  rcases List.mem_cons.mp hOther with rfl | hRest
  · exact hUnit
  · exact hs other hRest

theorem printable_digits (h : ∀ unit ∈ s, isDigit unit = true) : Printable s := by
  intro unit hUnit
  have hDigit := h unit hUnit
  simp only [isDigit, Bool.and_eq_true, decide_eq_true_eq, UInt16.le_iff_toNat_le] at hDigit
  exact le_trans (by decide) hDigit.1

theorem printable_notate {digits : JsString} (h : Printable digits) (n : Int) :
    Printable (JsNumber.notate digits n) := by
  have hZeros : ∀ count, Printable (replicate count 48) := by
    intro count unit hUnit
    rw [eq_of_mem_replicate hUnit]
    decide
  have hTake : ∀ count, Printable (digits.take count) := fun count unit hUnit => h unit (mem_of_mem_take hUnit)
  have hDrop : ∀ count, Printable (digits.drop count) := fun count unit hUnit => h unit (mem_of_mem_drop hUnit)
  rw [JsNumber.notate]
  split_ifs
  · exact printable_append h (hZeros _)
  · exact printable_append (hTake _) (printable_cons (by decide) (hDrop _))
  · exact printable_cons (by decide) (printable_cons (by decide) (printable_append (hZeros _) h))
  all_goals
    refine printable_append (hTake 1) (printable_append ?_ (printable_cons (by decide) (printable_cons (by decide)
      (printable_digits (isDigit_decimalText _)))))
    first
      | exact fun _ hUnit => absurd hUnit not_mem_nil
      | exact printable_cons (by decide) (hDrop 1)

theorem printable_escapeUnit (unit : UInt16) : Printable (escapeUnit unit) := by
  have hHex : ∀ n < 16, 32 ≤ (hexDigit n).toNat := by decide
  rw [escapeUnit]
  cases hShort : shortEscape unit with
  | some letter =>
    have hLetter : 32 ≤ letter.toNat := by
      unfold shortEscape at hShort
      split_ifs at hShort <;> (rw [← Option.some.inj hShort]; decide)
    exact printable_cons (by decide) (printable_cons hLetter (fun _ hUnit => absurd hUnit not_mem_nil))
  | none =>
    simp only
    split_ifs with hEscape
    · have hUnit := unit.toNat_lt
      refine printable_cons (by decide) (printable_cons (by decide) ?_)
      intro other hOther
      rcases List.mem_cons.mp hOther with rfl | hOther
      · exact hHex _ (by omega)
      rcases List.mem_cons.mp hOther with rfl | hOther
      · exact hHex _ (by omega)
      rcases List.mem_cons.mp hOther with rfl | hOther
      · exact hHex _ (by omega)
      · rw [List.mem_singleton.mp hOther]
        exact hHex _ (by omega)
    · intro other hOther
      rw [List.mem_singleton.mp hOther]
      have hHigh : ¬unit < 32 := fun hLow => hEscape (.inl hLow)
      rw [UInt16.lt_iff_toNat_lt] at hHigh
      exact Nat.le_of_not_lt hHigh

theorem printable_surrogate {unit : UInt16} (h : isHighSurrogate unit = true ∨ isLowSurrogate unit = true) :
    32 ≤ unit.toNat := by
  simp only [isHighSurrogate, isLowSurrogate, Bool.and_eq_true, decide_eq_true_eq, UInt16.le_iff_toNat_le] at h
  rcases h with hHigh | hLow
  · exact le_trans (by decide) hHigh.1
  · exact le_trans (by decide) hLow.1

theorem printable_quote (s : JsString) : Printable (quote s) := by
  have hUnits : Printable (escapeUnits s) := by
    induction s using escapeUnits.induct with
    | case1 => exact fun _ hUnit => absurd hUnit not_mem_nil
    | case2 unit => exact printable_escapeUnit unit
    | case3 unit next rest hPair ih =>
      rw [escapeUnits, if_pos hPair]
      exact printable_cons (printable_surrogate (.inl hPair.1)) (printable_cons (printable_surrogate (.inr hPair.2)) ih)
    | case4 unit next rest hPair ih =>
      rw [escapeUnits, if_neg hPair]
      exact printable_append (printable_escapeUnit unit) ih
  exact printable_cons (by decide) (printable_append hUnits (printable_cons (by decide)
    fun _ hUnit => absurd hUnit not_mem_nil))

theorem printable_stringify (value : JsonValue) : Printable value.stringify := by
  have hClose : ∀ unit : UInt16, 32 ≤ unit.toNat → Printable [unit] := fun unit hUnit =>
    printable_cons hUnit fun _ hNil => absurd hNil not_mem_nil
  induction value using JsonValue.induction with
  | null => exact printable_of_all (by decide)
  | bool b => cases b <;> exact printable_of_all (by decide)
  | num n =>
    show Printable n.text
    rw [JsNumber.text]
    refine printable_append ?_ (printable_notate (printable_digits (isDigit_decimalText _)) _)
    split_ifs
    · exact printable_of_all (by decide)
    · exact fun _ hUnit => absurd hUnit not_mem_nil
  | str s => exact printable_quote s
  | arr items ih =>
    refine printable_cons (by decide) ?_
    induction items with
    | nil => exact hClose 93 (by decide)
    | cons item rest ihRest =>
      have hItem := ih item mem_cons_self
      cases rest with
      | nil => exact printable_append hItem (hClose 93 (by decide))
      | cons next rest =>
        exact printable_append hItem (printable_cons (by decide)
          (ihRest fun x hx => ih x (mem_cons_of_mem _ hx)))
  | obj fields ih =>
    refine printable_cons (by decide) ?_
    induction fields with
    | nil => exact hClose 125 (by decide)
    | cons field rest ihRest =>
      have hField := ih field mem_cons_self
      cases rest with
      | nil =>
        exact printable_append (printable_quote _) (printable_cons (by decide)
          (printable_append hField (hClose 125 (by decide))))
      | cons next rest =>
        exact printable_append (printable_quote _) (printable_cons (by decide)
          (printable_append hField (printable_cons (by decide)
            (ihRest fun f hf => ih f (mem_cons_of_mem _ hf)))))

end OctoberHarness.JsonText
