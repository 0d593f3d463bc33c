import OctoberHarness.Json.Value

/-! Number literals: the text `String(x)` prints, and reading it back. -/
namespace OctoberHarness.JsonText

open List

def isDigit (unit : UInt16) : Bool :=
  48 ≤ unit && unit ≤ 57

/-- The number a run of decimal digits denotes. -/
def digitsValue (digits : JsString) : Nat :=
  digits.foldl (fun value digit => value * 10 + (digit.toNat - 48)) 0

theorem digitsValue_append (first second : JsString) :
    digitsValue (first ++ second) = digitsValue first * 10 ^ second.length + digitsValue second := by
  unfold digitsValue
  rw [foldl_append]
  generalize foldl _ 0 first = start
  induction second using reverseRecOn with
  | nil => simp
  | append_singleton rest digit ih =>
    rw [foldl_append, foldl_append, ih, length_append]
    simp only [foldl_cons, foldl_nil, length_singleton, pow_succ]
    ring

theorem digitsValue_replicate (count : Nat) : digitsValue (replicate count 48) = 0 := by
  induction count with
  | zero => rfl
  | succ count ih =>
    rw [replicate_succ', digitsValue_append, ih]
    rfl

theorem decimalText_of_lt : ∀ n < 10, decimalText n = [UInt16.ofNat (48 + n)] := by
  decide

variable (n : Nat) (negative : Bool) (x : JsNumber)

theorem decimalText_of_le (h : 10 ≤ n) :
    decimalText n = decimalText (n / 10) ++ decimalText (n % 10) := by
  rw [decimalText, Nat.toDigits_of_base_le (by decide) h, map_append, decimalText, decimalText,
    Nat.toDigits_of_lt_base (Nat.mod_lt _ (by decide))]

theorem digitsValue_digit : ∀ n < 10, digitsValue [UInt16.ofNat (48 + n)] = n := by
  decide

theorem digitsValue_decimalText : digitsValue (decimalText n) = n := by
  induction n using Nat.strong_induction_on with
  | _ n ih =>
    by_cases h : n < 10
    · rw [decimalText_of_lt n h, digitsValue_digit n h]
    · rw [decimalText_of_le n (by omega), digitsValue_append, ih (n / 10) (by omega),
        ih (n % 10) (by omega), decimalText_of_lt (n % 10) (by omega)]
      simp only [length_singleton, pow_one]
      omega

theorem isDigit_decimalText : ∀ unit ∈ decimalText n, isDigit unit = true := by
  have hAll : ∀ n < 10, (decimalText n).all isDigit = true := by decide
  have hDigit : ∀ n < 10, ∀ unit ∈ decimalText n, isDigit unit = true := fun n hn => List.all_eq_true.mp (hAll n hn)
  induction n using Nat.strong_induction_on with
  | _ n ih =>
    by_cases h : n < 10
    · exact hDigit n h
    · rw [decimalText_of_le n (by omega)]
      intro unit hUnit
      rcases List.mem_append.mp hUnit with hUnit | hUnit
      · exact ih (n / 10) (by omega) unit hUnit
      · exact hDigit (n % 10) (by omega) unit hUnit

theorem decimalText_ne_nil : decimalText n ≠ [] := by
  simp [decimalText, Nat.toDigits_ne_nil]

theorem decimalText_injective : Function.Injective decimalText := by
  intro a b h
  rw [← digitsValue_decimalText a, h, digitsValue_decimalText]

/-- The text after a run of digits does not go on with one. -/
def StopsDigits (rest : JsString) : Prop :=
  ∀ unit ∈ rest.head?, isDigit unit = false

theorem span_digits (digits rest : JsString) (hDigits : ∀ unit ∈ digits, isDigit unit = true)
    (hRest : StopsDigits rest) : (digits ++ rest).span isDigit = (digits, rest) := by
  rw [span_eq_takeWhile_dropWhile, takeWhile_append_of_pos hDigits,
    dropWhile_append_of_pos hDigits]
  cases rest with
  | nil => simp
  | cons unit rest =>
    have hUnit := hRest unit (by simp)
    simp [hUnit]

theorem signed_normal {mantissa : Nat} (h : ¬mantissa = 0) :
    (if negative then -((JsNumber.stripTens mantissa mantissa 0).1 : Int)
      else (JsNumber.stripTens mantissa mantissa 0).1) % 10 ≠ 0 := by
  have hNormal := JsNumber.stripTens_normal mantissa mantissa 0 (Nat.le_refl _) (Nat.pos_of_ne_zero h)
  split_ifs <;> omega

/-- The number `±mantissa * 10 ^ exponent`, in its shortest form. -/
def ofDecimal (negative : Bool) (mantissa : Nat) (exponent : Int) : JsNumber :=
  if h : mantissa = 0 then ⟨0, 0, JsNumber.zero_normal⟩
  else
    let stripped := JsNumber.stripTens mantissa mantissa 0
    ⟨if negative then -(stripped.1 : Int) else stripped.1, exponent + stripped.2, .inl (signed_normal negative h)⟩

/-- The sign of a number literal. -/
def readSign (text : JsString) : Bool × JsString :=
  if text.head? = some 45 then (true, text.drop 1) else (false, text)

/-- The fraction digits of a number literal, if it has any. -/
def readFraction (text : JsString) : JsString × JsString :=
  if text.head? = some 46 then (text.drop 1).span isDigit else ([], text)

/-- The exponent of a number literal, if it has one. -/
def readExponent (text : JsString) : Int × JsString :=
  if text.head? = some 101 then
    let (digits, rest) := (text.drop 2).span isDigit
    (if text[1]? = some 45 then -(digitsValue digits : Int) else digitsValue digits, rest)
  else (0, text)

/-- Read a number literal; returns the number and the text after it. -/
def readNumber (text : JsString) : Option (JsNumber × JsString) :=
  let (negative, text) := readSign text
  let (whole, text) := text.span isDigit
  if whole = [] then none
  else
    let (fraction, text) := readFraction text
    let (exponent, text) := readExponent text
    some (ofDecimal negative (digitsValue (whole ++ fraction)) (exponent - fraction.length), text)

theorem stripTens_of_normal (fuel m e : Nat) (h : m % 10 ≠ 0) :
    JsNumber.stripTens fuel m e = (m, e) := by
  cases fuel with
  | zero => rfl
  | succ fuel => rw [JsNumber.stripTens, if_neg h]

theorem stripTens_mul_pow (fuel m z e : Nat) (h : m % 10 ≠ 0) (hFuel : z ≤ fuel) :
    JsNumber.stripTens fuel (m * 10 ^ z) e = (m, e + z) := by
  induction z generalizing fuel e with
  | zero => rw [pow_zero, Nat.mul_one, stripTens_of_normal fuel m e h, Nat.add_zero]
  | succ z ih =>
    cases fuel with
    | zero => omega
    | succ fuel =>
      have hTen : m * 10 ^ (z + 1) % 10 = 0 := by
        rw [pow_succ, ← Nat.mul_assoc, Nat.mul_mod_left]
      have hDiv : m * 10 ^ (z + 1) / 10 = m * 10 ^ z := by
        rw [pow_succ, ← Nat.mul_assoc, Nat.mul_div_cancel _ (by decide)]
      rw [JsNumber.stripTens, if_pos hTen, hDiv, ih fuel (e + 1) (by omega), Nat.add_assoc,
        Nat.add_comm 1 z]

theorem ofDecimal_eq (z : Nat) (exponent : Int)
    (h : x.exponent = exponent + z) (hZero : x.mantissa = 0 → z = 0 ∧ exponent = 0) :
    ofDecimal (x.mantissa < 0) (x.mantissa.natAbs * 10 ^ z) exponent = x := by
  rcases x with ⟨mantissa, e, normal⟩
  simp only at h hZero ⊢
  by_cases hm : mantissa = 0
  · subst hm
    obtain ⟨rfl, rfl⟩ := hZero rfl
    simp [ofDecimal, h]
  · have hMod : mantissa.natAbs % 10 ≠ 0 := by
      rcases normal with normal | normal
      · omega
      · exact absurd normal.1 hm
    have hPos : mantissa.natAbs ≠ 0 := by omega
    have hPow : 0 < 10 ^ z := Nat.pos_of_ne_zero (by simp)
    have hFuel : z ≤ mantissa.natAbs * 10 ^ z := by
      have hLt : z < 10 ^ z := Nat.lt_pow_self (by decide)
      nlinarith [Nat.pos_of_ne_zero hPos]
    have hNe : mantissa.natAbs * 10 ^ z ≠ 0 := Nat.mul_ne_zero hPos (by omega)
    simp only [ofDecimal, hNe, dif_neg, not_false_eq_true,
      stripTens_mul_pow _ _ _ _ hMod hFuel, JsNumber.mk.injEq]
    constructor
    · simp only [decide_eq_true_eq]
      split_ifs <;> omega
    · omega

/-- The text after a number literal: nothing that would continue it. -/
def StopsNumber (rest : JsString) : Prop :=
  ∀ unit ∈ rest.head?, isDigit unit = false ∧ unit ≠ 46 ∧ unit ≠ 101

/-- The optional parts of a literal, with the value they denote. -/
inductive FractionText : JsString → JsString → Prop where
  | absent : FractionText [] []
  | present (digits : JsString) (h : ∀ unit ∈ digits, isDigit unit = true) :
      FractionText (46 :: digits) digits

inductive ExponentText : JsString → Int → Prop where
  | absent : ExponentText [] 0
  | positive (n : Nat) : ExponentText (101 :: 43 :: decimalText n) n
  | negative (n : Nat) : ExponentText (101 :: 45 :: decimalText n) (-n)

variable {rest exponentText fraction fractionText : JsString} {exponent : Int}

theorem StopsNumber.stopsDigits (h : StopsNumber rest) : StopsDigits rest :=
  fun unit hUnit => (h unit hUnit).1

theorem ExponentText.read (h : ExponentText exponentText exponent) (hRest : StopsNumber rest) :
    readExponent (exponentText ++ rest) = (exponent, rest) := by
  cases h with
  | absent =>
    have hHead : rest.head? ≠ some 101 := fun hHead => (hRest 101 hHead).2.2 rfl
    rw [nil_append, readExponent, if_neg hHead]
  | positive n =>
    have hSpan := span_digits _ rest (isDigit_decimalText n) hRest.stopsDigits
    simp only [readExponent, cons_append, head?_cons, if_true, drop_succ_cons,
      drop_zero, hSpan, digitsValue_decimalText]
    rfl
  | negative n =>
    have hSpan := span_digits _ rest (isDigit_decimalText n) hRest.stopsDigits
    simp only [readExponent, cons_append, head?_cons, if_true, drop_succ_cons,
      drop_zero, hSpan, digitsValue_decimalText]
    rfl

theorem ExponentText.stops (h : ExponentText exponentText exponent) (hRest : StopsNumber rest) :
    StopsDigits (exponentText ++ rest) ∧ (exponentText ++ rest).head? ≠ some 46 := by
  have hMark : StopsDigits (101 :: (exponentText.drop 1 ++ rest)) := by
    intro unit hUnit
    obtain rfl : 101 = unit := by simpa using hUnit
    rfl
  cases h with
  | absent => exact ⟨hRest.stopsDigits, fun hHead => (hRest 46 hHead).2.1 rfl⟩
  | positive n => exact ⟨hMark, by simp⟩
  | negative n => exact ⟨hMark, by simp⟩

theorem FractionText.read (h : FractionText fractionText fraction) (hStop : StopsDigits rest) (hDot : rest.head? ≠ some 46) :
    readFraction (fractionText ++ rest) = (fraction, rest) ∧ StopsDigits (fractionText ++ rest) := by
  cases h with
  | absent => exact ⟨by rw [nil_append, readFraction, if_neg hDot], hStop⟩
  | present digits hDigits =>
    refine ⟨?_, ?_⟩
    · simp only [readFraction, cons_append, head?_cons, if_true, drop_succ_cons,
        drop_zero]
      exact span_digits _ rest hDigits hStop
    · intro unit hUnit
      obtain rfl : 46 = unit := by simpa using hUnit
      rfl

theorem readSign_append (digits rest : JsString) (hNe : digits ≠ []) (hDigits : ∀ unit ∈ digits, isDigit unit = true) :
    readSign ((if negative then js "-" else []) ++ (digits ++ rest)) = (negative, digits ++ rest) := by
  cases negative with
  | true => rfl
  | false =>
    obtain ⟨digit, digits, rfl⟩ := exists_cons_of_ne_nil hNe
    have hDigit := hDigits digit (by simp)
    have hSign : digit ≠ 45 := by
      rintro rfl
      exact absurd hDigit (by decide)
    simp [readSign, hSign]

theorem readNumber_literal (whole : JsString) (hWhole : whole ≠ [])
    (hDigits : ∀ unit ∈ whole, isDigit unit = true) (hFraction : FractionText fractionText fraction)
    (hExponent : ExponentText exponentText exponent) (hRest : StopsNumber rest) :
    readNumber ((if negative then js "-" else []) ++
        (whole ++ (fractionText ++ (exponentText ++ rest)))) =
      some (ofDecimal negative (digitsValue (whole ++ fraction)) (exponent - fraction.length), rest) := by
  obtain ⟨hStop, hDot⟩ := hExponent.stops hRest
  obtain ⟨hRead, hStopWhole⟩ := hFraction.read hStop hDot
  simp only [readNumber, readSign_append negative whole _ hWhole hDigits,
    span_digits whole _ hDigits hStopWhole, if_neg hWhole, hRead, hExponent.read hRest]

theorem readNumber_eq (whole : JsString) (z : Nat) (hWhole : whole ≠ []) (hDigits : ∀ unit ∈ whole, isDigit unit = true)
    (hFraction : FractionText fractionText fraction) (hExponent : ExponentText exponentText exponent) (hRest : StopsNumber rest)
    (hValue : digitsValue (whole ++ fraction) = x.mantissa.natAbs * 10 ^ z)
    (hScale : x.exponent = exponent - fraction.length + z) (hZero : x.mantissa = 0 → z = 0 ∧ exponent - fraction.length = 0) :
    readNumber ((if x.mantissa < 0 then js "-" else []) ++
        (whole ++ (fractionText ++ (exponentText ++ rest)))) = some (x, rest) := by
  have hRead := readNumber_literal (decide (x.mantissa < 0)) whole hWhole hDigits hFraction hExponent
    hRest
  rw [hValue, ofDecimal_eq x z _ hScale hZero] at hRead
  simpa using hRead

theorem readNumber_text (hRest : StopsNumber rest) :
    readNumber (x.text ++ rest) = some (x, rest) := by
  have hDigits := isDigit_decimalText x.mantissa.natAbs
  have hNe := decimalText_ne_nil x.mantissa.natAbs
  have hLength : 0 < (decimalText x.mantissa.natAbs).length := length_pos_of_ne_nil hNe
  have hZero : x.mantissa = 0 → x.exponent = 0 ∧ (decimalText x.mantissa.natAbs).length = 1 := by
    intro hm
    refine ⟨?_, by rw [hm]; rfl⟩
    rcases x.normal with h | h
    · exact absurd (by rw [hm]; rfl) h
    · exact h.2
  have hValue := digitsValue_decimalText x.mantissa.natAbs
  have hZeros : ∀ count, ∀ unit ∈ replicate count (48 : UInt16), isDigit unit = true := by
    intro count unit hUnit
    rw [eq_of_mem_replicate hUnit]
    rfl
  rw [JsNumber.text]
  simp only [append_assoc]
  generalize decimalText x.mantissa.natAbs = digits at *
  by_cases hPlain : (digits.length : Int) ≤ x.exponent + digits.length ∧ x.exponent + digits.length ≤ 21
  -- an integer: the zeros after the shortest digits belong to the exponent
  · rw [JsNumber.notate, if_pos hPlain]
    refine readNumber_eq x (digits ++ replicate (x.exponent + digits.length - digits.length).toNat 48)
      (x.exponent + digits.length - digits.length).toNat (by simp [hNe]) ?_ .absent .absent hRest ?_ ?_ ?_
    · intro unit hUnit
      rcases List.mem_append.mp hUnit with hUnit | hUnit
      · exact hDigits unit hUnit
      · exact hZeros _ unit hUnit
    · rw [append_nil, digitsValue_append, digitsValue_replicate, length_replicate, hValue,
        Nat.add_zero]
    · simp only [length_nil]
      omega
    · intro hm
      have := hZero hm
      simp only [length_nil]
      omega
  have hPositive : x.mantissa ≠ 0 := by
    intro hm
    have := hZero hm
    omega
  by_cases hPoint : 0 < x.exponent + digits.length ∧ x.exponent + digits.length ≤ 21
  -- a point inside the digits
  · rw [JsNumber.notate, if_neg hPlain, if_pos hPoint, append_assoc]
    refine readNumber_eq x (digits.take (x.exponent + digits.length).toNat) 0 ?_ ?_
      (.present (digits.drop (x.exponent + digits.length).toNat) ?_) .absent hRest ?_ ?_
      (fun hm => absurd hm hPositive)
    · intro hNil
      have := congrArg length hNil
      simp only [length_take, length_nil] at this
      omega
    · exact fun unit hUnit => hDigits unit (mem_of_mem_take hUnit)
    · exact fun unit hUnit => hDigits unit (mem_of_mem_drop hUnit)
    · rw [take_append_drop, hValue, pow_zero, Nat.mul_one]
    · simp only [length_drop]
      omega
  by_cases hSmall : -6 < x.exponent + digits.length ∧ x.exponent + digits.length ≤ 0
  -- zeros right after the point
  · rw [JsNumber.notate, if_neg hPlain, if_neg hPoint, if_pos hSmall]
    refine readNumber_eq x [48] 0 (by simp) (List.all_eq_true.mp (by decide))
      (.present (replicate (-(x.exponent + digits.length)).toNat 48 ++ digits) ?_) .absent hRest
      ?_ ?_ (fun hm => absurd hm hPositive)
    · intro unit hUnit
      rcases List.mem_append.mp hUnit with hUnit | hUnit
      · exact hZeros _ unit hUnit
      · exact hDigits unit hUnit
    · rw [digitsValue_append, digitsValue_append, digitsValue_replicate, hValue]
      simp [digitsValue]
    · simp only [length_append, length_replicate]
      omega
  -- exponent notation
  · rw [JsNumber.notate, if_neg hPlain, if_neg hPoint, if_neg hSmall, append_assoc,
      append_assoc]
    have hFraction : FractionText (if digits.length = 1 then [] else 46 :: digits.drop 1)
        (digits.drop 1) := by
      split_ifs with hSingle
      · rw [drop_eq_nil_of_le (by omega)]
        exact .absent
      · exact .present _ fun unit hUnit => hDigits unit (mem_of_mem_drop hUnit)
    have hExponent : ExponentText (101 :: (if x.exponent + digits.length - 1 < 0 then 45 else 43) ::
        decimalText (x.exponent + digits.length - 1).natAbs) (x.exponent + digits.length - 1) := by
      split_ifs with hNegative
      · have h := ExponentText.negative (x.exponent + digits.length - 1).natAbs
        rwa [show -((x.exponent + digits.length - 1).natAbs : Int) = x.exponent + digits.length - 1 by
          omega] at h
      · have h := ExponentText.positive (x.exponent + digits.length - 1).natAbs
        rwa [show ((x.exponent + digits.length - 1).natAbs : Int) = x.exponent + digits.length - 1 by
          omega] at h
    refine readNumber_eq x (digits.take 1) 0 ?_ ?_ hFraction hExponent hRest ?_ ?_
      (fun hm => absurd hm hPositive)
    · simpa using hNe
    · exact fun unit hUnit => hDigits unit (mem_of_mem_take hUnit)
    · rw [take_append_drop, hValue, pow_zero, Nat.mul_one]
    · simp only [length_drop]
      omega

end OctoberHarness.JsonText
