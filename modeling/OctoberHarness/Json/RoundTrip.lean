import OctoberHarness.Json.Text

/-! `JSON.parse` reads back what `JSON.stringify` prints. -/
namespace OctoberHarness.JsonText

open JsonValue List Option

variable (unit : UInt16) (value : JsonValue) (fields : Fields) (rest : JsString)

theorem skipSpace_cons (h : isSpace unit = false) :
    skipSpace (unit :: rest) = unit :: rest := by
  simp [skipSpace, h]

theorem isSpace_of_isDigit (h : isDigit unit = true) : isSpace unit = false := by
  simp only [isDigit, Bool.and_eq_true, decide_eq_true_eq, UInt16.le_iff_toNat_le] at h
  have hNe : ∀ n : UInt16, n.toNat < 48 → unit ≠ n := by
    rintro n hn rfl
    exact absurd h.1 (by simpa using hn)
  simp [isSpace, hNe 32 (by decide), hNe 9 (by decide), hNe 10 (by decide), hNe 13 (by decide)]

theorem notate_head (digits : JsString) (n : Int) (hNe : digits ≠ []) (hDigits : ∀ unit ∈ digits, isDigit unit = true) :
    ∃ unit rest, JsNumber.notate digits n = unit :: rest ∧ isDigit unit = true := by
  obtain ⟨digit, others, rfl⟩ := exists_cons_of_ne_nil hNe
  have hDigit := hDigits digit (by simp)
  by_cases hPlain : (length (digit :: others) : Int) ≤ n ∧ n ≤ 21
  · exact ⟨digit, _, by rw [JsNumber.notate, if_pos hPlain]; rfl, hDigit⟩
  by_cases hPoint : 0 < n ∧ n ≤ 21
  · obtain ⟨count, hCount⟩ : ∃ count, n.toNat = count + 1 := ⟨n.toNat - 1, by omega⟩
    exact ⟨digit, _, by rw [JsNumber.notate, if_neg hPlain, if_pos hPoint, hCount]; rfl, hDigit⟩
  by_cases hSmall : -6 < n ∧ n ≤ 0
  · exact ⟨48, _, by rw [JsNumber.notate, if_neg hPlain, if_neg hPoint, if_pos hSmall], rfl⟩
  · exact ⟨digit, _, by rw [JsNumber.notate, if_neg hPlain, if_neg hPoint, if_neg hSmall]; rfl, hDigit⟩

theorem text_head (x : JsNumber) :
    ∃ unit rest, x.text = unit :: rest ∧ (isDigit unit = true ∨ unit = 45) := by
  rw [JsNumber.text]
  by_cases hSign : x.mantissa < 0
  · exact ⟨45, _, by rw [if_pos hSign]; rfl, .inr rfl⟩
  · obtain ⟨unit, rest, hText, hDigit⟩ := notate_head (decimalText x.mantissa.natAbs)
      (x.exponent + (decimalText x.mantissa.natAbs).length) (decimalText_ne_nil _)
      (isDigit_decimalText _)
    exact ⟨unit, rest, by simp only [if_neg hSign]; exact hText, .inl hDigit⟩

theorem stringify_head :
    ∃ unit rest, value.stringify = unit :: rest ∧ isSpace unit = false ∧ unit ≠ 93 ∧ unit ≠ 125 := by
  cases value with
  | null => exact ⟨110, _, rfl, by decide, by decide, by decide⟩
  | bool b => cases b <;> exact ⟨_, _, rfl, by decide, by decide, by decide⟩
  | num n =>
    obtain ⟨unit, rest, hText, hUnit⟩ := text_head n
    refine ⟨unit, rest, hText, ?_⟩
    rcases hUnit with hDigit | rfl
    · refine ⟨isSpace_of_isDigit unit hDigit, ?_, ?_⟩ <;>
        (rintro rfl; exact absurd hDigit (by decide))
    · decide
  | str s => exact ⟨34, _, rfl, by decide, by decide, by decide⟩
  | arr items => exact ⟨91, _, rfl, by decide, by decide, by decide⟩
  | obj fields => exact ⟨123, _, rfl, by decide, by decide, by decide⟩

theorem readNumber_branch (fuel : Nat) (x : JsNumber) {rest : JsString} (hRest : StopsNumber rest) :
    readValue (fuel + 1) (x.text ++ rest) = some (.num x, rest) := by
  have hRead := readNumber_text x hRest
  obtain ⟨unit, tail, hText, hUnit⟩ := text_head x
  have hNe : isSpace unit = false ∧ unit ≠ 34 ∧ unit ≠ 91 ∧ unit ≠ 123 ∧ unit ≠ 110 ∧ unit ≠ 116 ∧
      unit ≠ 102 := by
    rcases hUnit with hDigit | rfl
    · refine ⟨isSpace_of_isDigit unit hDigit, ?_, ?_, ?_, ?_, ?_, ?_⟩ <;>
        (rintro rfl; exact absurd hDigit (by decide))
    · decide
  obtain ⟨hSpace, h34, h91, h123, h110, h116, h102⟩ := hNe
  rw [readValue]
  rw [hText, cons_append] at hRead ⊢
  simp only [skipSpace_cons unit _ hSpace, head?_cons, some.injEq, h34, h91, h123, if_false,
    hRead, map_some]
  have hWord : ∀ (first : UInt16) (word : JsString), unit ≠ first →
      (first :: word).isPrefixOf (unit :: (tail ++ rest)) = false := by
    intro first word hFirst
    simp [isPrefixOf, Ne.symm hFirst]
  rw [show js "null" = 110 :: [117, 108, 108] from rfl, show js "true" = 116 :: [114, 117, 101] from rfl,
    show js "false" = 102 :: [97, 108, 115, 101] from rfl, hWord _ _ h110, hWord _ _ h116,
    hWord _ _ h102]
  rfl

theorem stopsNumber_cons (h : isDigit unit = false ∧ unit ≠ 46 ∧ unit ≠ 101) : StopsNumber (unit :: rest) := by
  intro other hOther
  obtain rfl : unit = other := by simpa using hOther
  exact h

/-- What the reader does on the text of a value, for any text after it. -/
def Reads (value : JsonValue) : Prop :=
  ∀ fuel rest, value.stringify.length ≤ fuel → StopsNumber rest →
    readValue fuel (value.stringify ++ rest) = some (value, rest)

theorem stringify_length_pos : 0 < value.stringify.length := by
  obtain ⟨unit, rest, hText, -⟩ := stringify_head value
  simp [hText]

theorem readItems_stringify (items : List JsonValue) (hNe : items ≠ []) (hItems : ∀ x ∈ items, Reads x) (fuel : Nat)
    (rest : JsString) (hFuel : (stringify.stringifyItems items).length ≤ fuel) :
    readItems fuel (stringify.stringifyItems items ++ rest) = some (items, rest) := by
  induction items generalizing fuel with
  | nil => exact absurd rfl hNe
  | cons x xs ih =>
    have hPos := stringify_length_pos x
    have hx := hItems x (by simp)
    cases xs with
    | nil =>
      rw [stringify.stringifyItems] at hFuel ⊢
      rw [length_append, length_singleton] at hFuel
      obtain ⟨fuel, rfl⟩ : ∃ f, fuel = f + 1 := ⟨fuel - 1, by omega⟩
      have hRead := hx fuel (93 :: rest) (by omega) (stopsNumber_cons _ _ (by decide))
      rw [append_assoc, singleton_append, readItems, hRead]
      rfl
    | cons y ys =>
      rw [stringify.stringifyItems] at hFuel ⊢
      rw [length_append, length_cons] at hFuel
      obtain ⟨fuel, rfl⟩ : ∃ f, fuel = f + 1 := ⟨fuel - 1, by omega⟩
      have hRead := hx fuel (44 :: (stringify.stringifyItems (y :: ys) ++ rest)) (by omega)
        (stopsNumber_cons _ _ (by decide))
      have hTail := ih (by simp) (fun z hz => hItems z (by simp [hz])) fuel (by omega)
      rw [append_assoc, cons_append, readItems, hRead]
      simp only [skipSpace_cons 44 _ (by decide), head?_cons, if_true, drop_succ_cons,
        drop_zero, hTail, map_some]

theorem readField (fuel : Nat) (f : JsString × JsonValue) (fields : Fields) (tail : JsString)
    (hValue : Reads f.2) (hFuel : f.2.stringify.length ≤ fuel) (hTail : StopsNumber tail) :
    readFields (fuel + 1) (quote f.1 ++ 58 :: (f.2.stringify ++ tail)) fields =
      let rest := skipSpace tail
      let fields := Fields.define fields f.1 f.2
      if rest.head? = some 44 then readFields fuel (rest.drop 1) fields
      else if rest.head? = some 125 then some (fields, rest.drop 1)
      else none := by
  have hKey := unquote_escapeUnits f.1 (58 :: (f.2.stringify ++ tail))
  have hRead := hValue fuel tail hFuel hTail
  rw [readFields, quote, cons_append, append_assoc, singleton_append]
  simp only [skipSpace_cons 34 _ (by decide), head?_cons, drop_succ_cons, drop_zero,
    hKey, skipSpace_cons 58 _ (by decide), hRead, ne_eq, not_true_eq_false, if_false]

theorem readFields_stringify (hNe : fields ≠ []) (hFields : ∀ f ∈ fields, Reads f.2) (fuel : Nat)
    (rest : JsString) (done : Fields) (hKeys : OwnKeys ((done ++ fields).map Prod.fst))
    (hFuel : (stringify.stringifyFields fields).length ≤ fuel) :
    readFields fuel (stringify.stringifyFields fields ++ rest) done = some (done ++ fields, rest) := by
  induction fields generalizing fuel done with
  | nil => exact absurd rfl hNe
  | cons f fs ih =>
    have hf := hFields f (by simp)
    have hDefine : Fields.define done f.1 f.2 = done ++ [f] := by
      refine Fields.define_last done f.1 f.2 ⟨?_, ?_⟩
      · refine hKeys.1.sublist ?_
        simp
      · refine hKeys.2.sublist ?_
        simp
    cases fs with
    | nil =>
      rw [stringify.stringifyFields] at hFuel ⊢
      simp only [length_append, length_cons, length_nil] at hFuel
      obtain ⟨fuel, rfl⟩ : ∃ n, fuel = n + 1 := ⟨fuel - 1, by omega⟩
      have hRead := readField fuel f done (125 :: rest) hf (by omega)
        (stopsNumber_cons _ _ (by decide))
      rw [append_assoc, cons_append, append_assoc, singleton_append, hRead]
      simp [skipSpace_cons 125 _ (by decide : isSpace 125 = false), hDefine]
    | cons g gs =>
      rw [stringify.stringifyFields] at hFuel ⊢
      simp only [length_append, length_cons] at hFuel
      obtain ⟨fuel, rfl⟩ : ∃ n, fuel = n + 1 := ⟨fuel - 1, by omega⟩
      have hRead := readField fuel f done (44 :: (stringify.stringifyFields (g :: gs) ++ rest)) hf
        (by omega) (stopsNumber_cons _ _ (by decide))
      have hTail := ih (by simp) (fun h hh => hFields h (by simp [hh])) fuel (done ++ [f])
        (by simpa using hKeys) (by omega)
      rw [append_assoc, cons_append, append_assoc, cons_append, hRead]
      simp only [skipSpace_cons 44 _ (by decide : isSpace 44 = false), head?_cons, if_true,
        drop_succ_cons, drop_zero, hDefine, hTail, append_assoc,
        singleton_append]

theorem stringifyItems_head (items : List JsonValue) (rest : JsString) (hNe : items ≠ []) :
    ∃ unit tail, stringify.stringifyItems items ++ rest = unit :: tail ∧ isSpace unit = false ∧
      unit ≠ 93 := by
  obtain ⟨x, xs, rfl⟩ := exists_cons_of_ne_nil hNe
  obtain ⟨unit, tail, hText, hSpace, hClose, -⟩ := stringify_head x
  cases xs with
  | nil => exact ⟨unit, _, by rw [stringify.stringifyItems, hText]; rfl, hSpace, hClose⟩
  | cons y ys => exact ⟨unit, _, by rw [stringify.stringifyItems, hText]; rfl, hSpace, hClose⟩

theorem stringifyFields_head (hNe : fields ≠ []) :
    ∃ tail, stringify.stringifyFields fields ++ rest = 34 :: tail := by
  obtain ⟨f, fs, rfl⟩ := exists_cons_of_ne_nil hNe
  cases fs with
  | nil => exact ⟨_, rfl⟩
  | cons g gs => exact ⟨_, rfl⟩

theorem readValue_stringify (hStrict : value.Strict) : Reads value := by
  induction value using JsonValue.induction with
  | null =>
    intro fuel rest hFuel _
    obtain ⟨fuel, rfl⟩ : ∃ n, fuel = n + 1 := ⟨fuel - 1, by simp [stringify, js] at hFuel; omega⟩
    rw [readValue]
    rfl
  | bool b =>
    intro fuel rest hFuel _
    obtain ⟨fuel, rfl⟩ : ∃ n, fuel = n + 1 :=
      ⟨fuel - 1, by cases b <;> simp [stringify, js] at hFuel <;> omega⟩
    rw [readValue]
    cases b <;> rfl
  | num n =>
    intro fuel rest hFuel hRest
    have hPos := stringify_length_pos (.num n)
    obtain ⟨fuel, rfl⟩ : ∃ n, fuel = n + 1 := ⟨fuel - 1, by omega⟩
    exact readNumber_branch fuel n hRest
  | str s =>
    intro fuel rest hFuel _
    have hPos := stringify_length_pos (.str s)
    obtain ⟨fuel, rfl⟩ : ∃ n, fuel = n + 1 := ⟨fuel - 1, by omega⟩
    have hRead := unquote_escapeUnits s rest
    rw [readValue, stringify, quote, cons_append, append_assoc, singleton_append]
    simp only [skipSpace_cons 34 _ (by decide : isSpace 34 = false), head?_cons, if_true,
      drop_succ_cons, drop_zero, hRead, map_some]
  | arr items ih =>
    intro fuel rest hFuel _
    rw [strict_arr] at hStrict
    rw [stringify] at hFuel ⊢
    rw [length_cons] at hFuel
    obtain ⟨fuel, rfl⟩ : ∃ n, fuel = n + 1 := ⟨fuel - 1, by omega⟩
    rw [readValue, cons_append]
    simp only [skipSpace_cons 91 _ (by decide : isSpace 91 = false), head?_cons,
      some.injEq, show (91 : UInt16) ≠ 34 by decide, if_false, if_true, drop_succ_cons,
      drop_zero]
    by_cases hNe : items = []
    · subst hNe
      rfl
    · have hItems := readItems_stringify items hNe (fun x hx => ih x hx (hStrict x hx)) fuel rest
        (by omega)
      obtain ⟨unit, tail, hText, hSpace, hClose⟩ := stringifyItems_head items rest hNe
      rw [hText] at hItems ⊢
      simp only [skipSpace_cons unit _ hSpace, head?_cons, some.injEq, hClose, if_false,
        hItems, map_some]
  | obj fields ih =>
    intro fuel rest hFuel _
    rw [strict_obj] at hStrict
    rw [stringify] at hFuel ⊢
    rw [length_cons] at hFuel
    obtain ⟨fuel, rfl⟩ : ∃ n, fuel = n + 1 := ⟨fuel - 1, by omega⟩
    rw [readValue, cons_append]
    simp only [skipSpace_cons 123 _ (by decide : isSpace 123 = false), head?_cons,
      some.injEq, show (123 : UInt16) ≠ 34 by decide, show (123 : UInt16) ≠ 91 by decide,
      if_false, if_true, drop_succ_cons, drop_zero]
    by_cases hNe : fields = []
    · subst hNe
      rfl
    · have hFields := readFields_stringify fields hNe (fun f hf => ih f hf (hStrict.2 f hf)) fuel rest
        [] hStrict.1 (by omega)
      obtain ⟨tail, hText⟩ := stringifyFields_head fields rest hNe
      rw [hText] at hFields ⊢
      simp only [skipSpace_cons 34 _ (by decide : isSpace 34 = false), head?_cons,
        some.injEq, show (34 : UInt16) ≠ 125 by decide, if_false, hFields, map_some,
        nil_append]

theorem parse_stringify (hStrict : value.Strict) :
    parse value.stringify = some value := by
  have hRead := readValue_stringify value hStrict value.stringify.length [] (Nat.le_refl _)
    (by intro unit hUnit; simp at hUnit)
  rw [append_nil] at hRead
  rw [parse, hRead]
  rfl

theorem stringify_injective (x y : JsonValue) (hx : x.Strict) (hy : y.Strict) (h : x.stringify = y.stringify) : x = y := by
  have hRead := parse_stringify x hx
  rw [h, parse_stringify y hy] at hRead
  exact (some.inj hRead).symm

end OctoberHarness.JsonText
