import OctoberHarness.Json.Text
import OctoberHarness.Library.Utf16

/-! JSON text has no lone surrogate: lone ones are escaped, so its bytes are read back as the
text. -/
namespace OctoberHarness

open List

/-- `isWellFormed`. -/
def WellFormed (s : JsString) : Prop :=
  ∃ text, s = Utf16.encode text

namespace WellFormed

theorem nil : WellFormed [] :=
  ⟨[], rfl⟩

variable {s : JsString}

theorem append {t : JsString} (hs : WellFormed s) (ht : WellFormed t) : WellFormed (s ++ t) := by
  obtain ⟨first, rfl⟩ := hs
  obtain ⟨second, rfl⟩ := ht
  exact ⟨first ++ second, List.flatMap_append.symm⟩

theorem unit {unit : UInt16} (hHigh : Utf16.isHigh unit = false) (hLow : Utf16.isLow unit = false) :
    WellFormed [unit] := by
  have hBound := unit.toNat_lt
  have hRange : unit.toNat < 0xD800 ∨ 0xDFFF < unit.toNat := by
    simp only [Utf16.isHigh, Utf16.isLow, Bool.and_eq_false_iff, decide_eq_false_iff_not, UInt16.le_iff_toNat_le] at hHigh hLow
    simp only [UInt16.reduceToNat] at hHigh hLow
    omega
  have hValid : unit.toNat.isValidChar := by
    rcases hRange with hSmall | hLarge
    · exact .inl hSmall
    · exact .inr ⟨hLarge, by omega⟩
  have hValue : (Char.ofNat unit.toNat).toNat = unit.toNat := by
    rw [Char.ofNat, dif_pos hValid]
    rfl
  use [Char.ofNat unit.toNat]
  rw [Utf16.encode, flatMap_singleton, Utf16.units, hValue, if_pos hBound, UInt16.ofNat_toNat]

theorem pair {high low : UInt16} (hHigh : Utf16.isHigh high = true) (hLow : Utf16.isLow low = true) :
    WellFormed [high, low] := by
  simp only [Utf16.isHigh, Utf16.isLow, Bool.and_eq_true, decide_eq_true_eq, UInt16.le_iff_toNat_le] at hHigh hLow
  simp only [UInt16.reduceToNat] at hHigh hLow
  have hValid : (0x10000 + (high.toNat - 0xD800) * 0x400 + (low.toNat - 0xDC00)).isValidChar :=
    .inr ⟨by omega, by omega⟩
  have hValue : (Utf16.pairChar high low).toNat = 0x10000 + (high.toNat - 0xD800) * 0x400 + (low.toNat - 0xDC00) := by
    rw [Utf16.pairChar, Char.ofNat, dif_pos hValid]
    rfl
  use [Utf16.pairChar high low]
  rw [Utf16.encode, flatMap_singleton, Utf16.units, hValue, if_neg (by omega)]
  have hFirst : 0xD800 + (0x10000 + (high.toNat - 0xD800) * 0x400 + (low.toNat - 0xDC00) - 0x10000) / 0x400 = high.toNat := by
    omega
  have hSecond : 0xDC00 + (0x10000 + (high.toNat - 0xD800) * 0x400 + (low.toNat - 0xDC00) - 0x10000) % 0x400 = low.toNat := by
    omega
  rw [hFirst, hSecond, UInt16.ofNat_toNat, UInt16.ofNat_toNat]

theorem cons {u : UInt16} (hHigh : Utf16.isHigh u = false) (hLow : Utf16.isLow u = false)
    (hs : WellFormed s) : WellFormed (u :: s) :=
  (unit hHigh hLow).append hs

theorem of_small (h : ∀ u ∈ s, u.toNat < 0xD800) : WellFormed s := by
  induction s with
  | nil => exact nil
  | cons u rest ih =>
    have hUnit := h u mem_cons_self
    refine cons ?_ ?_ (ih fun v hv => h v (mem_cons_of_mem _ hv))
    · simp only [Utf16.isHigh, Bool.and_eq_false_iff, decide_eq_false_iff_not, UInt16.le_iff_toNat_le]
      simp only [UInt16.reduceToNat]
      omega
    · simp only [Utf16.isLow, Bool.and_eq_false_iff, decide_eq_false_iff_not, UInt16.le_iff_toNat_le]
      simp only [UInt16.reduceToNat]
      omega

theorem of_all (h : (s.all fun u => u.toNat < 0xD800) = true) : WellFormed s :=
  of_small fun u hu => of_decide_eq_true (List.all_eq_true.mp h u hu)

end WellFormed

namespace JsonText

theorem hexDigit_small (n : Nat) (h : n < 16) : (hexDigit n).toNat < 0xD800 := by
  have hAll : ∀ n < 16, (hexDigit n).toNat < 0xD800 := by decide
  exact hAll n h

theorem wellFormed_escapeUnit (unit : UInt16) : WellFormed (escapeUnit unit) := by
  have hBound := unit.toNat_lt
  rw [escapeUnit]
  cases hShort : shortEscape unit with
  | some letter =>
    have hLetter : letter.toNat < 0xD800 := by
      unfold shortEscape at hShort
      split_ifs at hShort <;> (obtain rfl := Option.some.inj hShort; decide)
    apply WellFormed.of_small
    intro u hu
    rcases List.mem_cons.mp hu with rfl | hu
    · decide
    · rw [List.mem_singleton.mp hu]
      exact hLetter
  | none =>
    show WellFormed (if _ then _ else _)
    split_ifs with hEscape
    · apply WellFormed.of_small
      intro u hu
      rw [unicodeEscape] at hu
      simp only [mem_cons, not_mem_nil, or_false] at hu
      rcases hu with rfl | rfl | rfl | rfl | rfl | rfl
      · decide
      · decide
      · exact hexDigit_small _ (by omega)
      · exact hexDigit_small _ (by omega)
      · exact hexDigit_small _ (by omega)
      · exact hexDigit_small _ (by omega)
    · rw [not_or, not_or, Bool.not_eq_true, Bool.not_eq_true] at hEscape
      exact WellFormed.unit hEscape.2.1 hEscape.2.2

theorem wellFormed_quote (s : JsString) : WellFormed (quote s) := by
  have hQuote : WellFormed [(34 : UInt16)] := WellFormed.unit (by decide) (by decide)
  have hUnits : WellFormed (escapeUnits s) := by
    induction s using escapeUnits.induct with
    | case1 => exact WellFormed.nil
    | case2 unit => exact wellFormed_escapeUnit unit
    | case3 unit next rest hPair ih =>
      rw [escapeUnits, if_pos hPair]
      exact (WellFormed.pair hPair.1 hPair.2).append ih
    | case4 unit next rest hPair ih =>
      rw [escapeUnits, if_neg hPair]
      exact (wellFormed_escapeUnit unit).append ih
  exact hQuote.append (hUnits.append hQuote)

theorem small_digits (n : Nat) : ∀ u ∈ decimalText n, u.toNat < 0xD800 := by
  intro u hu
  have hDigit := isDigit_decimalText n u hu
  simp only [isDigit, Bool.and_eq_true, decide_eq_true_eq, UInt16.le_iff_toNat_le] at hDigit
  simp only [UInt16.reduceToNat] at hDigit
  omega

theorem small_notate {digits : JsString} (h : ∀ u ∈ digits, u.toNat < 0xD800) (n : Int) :
    ∀ u ∈ JsNumber.notate digits n, u.toNat < 0xD800 := by
  have hZeros : ∀ count, ∀ u ∈ replicate count (48 : UInt16), u.toNat < 0xD800 := by
    intro count u hu
    rw [eq_of_mem_replicate hu]
    decide
  have hAppend : ∀ {a b : JsString}, (∀ u ∈ a, u.toNat < 0xD800) → (∀ u ∈ b, u.toNat < 0xD800) →
      ∀ u ∈ a ++ b, u.toNat < 0xD800 := fun ha hb u hu => (List.mem_append.mp hu).elim (ha u) (hb u)
  have hCons : ∀ {a : UInt16} {b : JsString}, a.toNat < 0xD800 → (∀ u ∈ b, u.toNat < 0xD800) →
      ∀ u ∈ a :: b, u.toNat < 0xD800 := by
    intro a b ha hb u hu
    rcases List.mem_cons.mp hu with rfl | hu
    · exact ha
    · exact hb u hu
  have hTake : ∀ count, ∀ u ∈ digits.take count, u.toNat < 0xD800 := fun count u hu => h u (mem_of_mem_take hu)
  have hDrop : ∀ count, ∀ u ∈ digits.drop count, u.toNat < 0xD800 := fun count u hu => h u (mem_of_mem_drop hu)
  rw [JsNumber.notate]
  split_ifs
  · exact hAppend h (hZeros _)
  · exact hAppend (hTake _) (hCons (by decide) (hDrop _))
  · exact hCons (by decide) (hCons (by decide) (hAppend (hZeros _) h))
  all_goals
    refine hAppend (hTake _) (hAppend ?_ (hCons (by decide) (hCons (by decide) (small_digits _))))
    first
      | exact fun u hu => absurd hu not_mem_nil
      | exact hCons (by decide) (hDrop _)

theorem wellFormed_text (x : JsNumber) : WellFormed x.text := by
  have hDigits := small_notate (small_digits x.mantissa.natAbs) (x.exponent + (decimalText x.mantissa.natAbs).length)
  apply WellFormed.of_small
  intro u hu
  rw [JsNumber.text] at hu
  rcases List.mem_append.mp hu with hSign | hBody
  · split_ifs at hSign
    · rw [show js "-" = [45] from rfl, mem_singleton] at hSign
      rw [hSign]
      decide
    · exact absurd hSign not_mem_nil
  · exact hDigits u hBody

theorem wellFormed_stringify (value : JsonValue) : WellFormed value.stringify := by
  have hUnit : ∀ unit : UInt16, unit.toNat < 0xD800 → ∀ {s}, WellFormed s → WellFormed (unit :: s) := by
    intro unit hSmall s hs
    have hOne : WellFormed [unit] := WellFormed.of_small fun u hu => by rw [List.mem_singleton.mp hu]; exact hSmall
    exact hOne.append hs
  induction value using JsonValue.induction with
  | null => exact WellFormed.of_all (by decide)
  | bool b => cases b <;> exact WellFormed.of_all (by decide)
  | num n => exact wellFormed_text n
  | str s => exact wellFormed_quote s
  | arr items ih =>
    rw [JsonValue.stringify]
    apply hUnit 91 (by decide)
    induction items with
    | nil => exact hUnit 93 (by decide) .nil
    | cons x rest hRest =>
      cases rest with
      | nil =>
        rw [JsonValue.stringify.stringifyItems]
        exact (ih x mem_cons_self).append (hUnit 93 (by decide) .nil)
      | cons y others =>
        rw [JsonValue.stringify.stringifyItems]
        exact (ih x mem_cons_self).append
          (hUnit 44 (by decide) (hRest fun z hz => ih z (mem_cons_of_mem _ hz)))
  | obj fields ih =>
    rw [JsonValue.stringify]
    apply hUnit 123 (by decide)
    induction fields with
    | nil => exact hUnit 125 (by decide) .nil
    | cons f rest hRest =>
      cases rest with
      | nil =>
        rw [JsonValue.stringify.stringifyFields]
        exact (wellFormed_quote f.1).append
          (hUnit 58 (by decide) ((ih f mem_cons_self).append (hUnit 125 (by decide) .nil)))
      | cons g others =>
        rw [JsonValue.stringify.stringifyFields]
        exact (wellFormed_quote f.1).append (hUnit 58 (by decide) ((ih f mem_cons_self).append
          (hUnit 44 (by decide) (hRest fun h hh => ih h (mem_cons_of_mem _ hh)))))

end JsonText

end OctoberHarness
