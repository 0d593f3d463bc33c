import OctoberHarness.Json.Number
import OctoberHarness.Json.Content

/-! The JSON text of a value, as `JSON.stringify` prints it. -/
namespace OctoberHarness

namespace JsonText

/-- A lower-case hexadecimal digit. -/
def hexDigit (n : Nat) : UInt16 :=
  if n < 10 then UInt16.ofNat (48 + n) else UInt16.ofNat (87 + n)

/-- The value of a hexadecimal digit. -/
def hexValue (unit : UInt16) : Option Nat :=
  let n := unit.toNat
  if 48 ≤ n ∧ n ≤ 57 then some (n - 48)
  else if 97 ≤ n ∧ n ≤ 102 then some (n - 87)
  else if 65 ≤ n ∧ n ≤ 70 then some (n - 55)
  else none

/-- `\uXXXX`. -/
def unicodeEscape (unit : UInt16) : JsString :=
  let n := unit.toNat
  [92, 117, hexDigit (n / 4096), hexDigit (n / 256 % 16), hexDigit (n / 16 % 16), hexDigit (n % 16)]

def isHighSurrogate (unit : UInt16) : Bool :=
  0xD800 ≤ unit && unit ≤ 0xDBFF

def isLowSurrogate (unit : UInt16) : Bool :=
  0xDC00 ≤ unit && unit ≤ 0xDFFF

/-- The letter of a two-character escape. -/
def shortEscape (unit : UInt16) : Option UInt16 :=
  if unit = 8 then some 98
  else if unit = 9 then some 116
  else if unit = 10 then some 110
  else if unit = 12 then some 102
  else if unit = 13 then some 114
  else if unit = 34 then some 34
  else if unit = 92 then some 92
  else none

/-- The unit a two-character escape denotes. -/
def shortUnescape (letter : UInt16) : Option UInt16 :=
  if letter = 98 then some 8
  else if letter = 116 then some 9
  else if letter = 110 then some 10
  else if letter = 102 then some 12
  else if letter = 114 then some 13
  else if letter = 34 then some 34
  else if letter = 92 then some 92
  else if letter = 47 then some 47
  else none

/-- One code unit that is not half of a surrogate pair. -/
def escapeUnit (unit : UInt16) : JsString :=
  match shortEscape unit with
  | some letter => [92, letter]
  | none =>
    if unit < 32 ∨ isHighSurrogate unit ∨ isLowSurrogate unit then unicodeEscape unit
    else [unit]

/-- The body of a string literal. Surrogate pairs stand as they are and lone
surrogates are escaped, so the text is well-formed UTF-16. -/
def escapeUnits : JsString → JsString
  | [] => []
  | [unit] => escapeUnit unit
  | unit :: next :: rest =>
    if isHighSurrogate unit ∧ isLowSurrogate next then unit :: next :: escapeUnits rest
    else escapeUnit unit ++ escapeUnits (next :: rest)

/-- A string literal. -/
def quote (s : JsString) : JsString :=
  34 :: (escapeUnits s ++ [34])

/-- Read a string literal whose opening quote is already taken; returns the
string and the text after it. -/
def unquote : JsString → Option (JsString × JsString)
  | [] => none
  | unit :: rest =>
    if unit = 34 then some ([], rest)
    else if unit = 92 then
      match rest with
      | [] => none
      | letter :: rest =>
        if letter = 117 then
          match rest with
          | h₁ :: h₂ :: h₃ :: h₄ :: rest =>
            match hexValue h₁, hexValue h₂, hexValue h₃, hexValue h₄ with
            | some d₁, some d₂, some d₃, some d₄ =>
              (unquote rest).map fun (s, tail) =>
                (UInt16.ofNat (((d₁ * 16 + d₂) * 16 + d₃) * 16 + d₄) :: s, tail)
            | _, _, _, _ => none
          | _ => none
        else
          match shortUnescape letter with
          | some decoded => (unquote rest).map fun (s, tail) => (decoded :: s, tail)
          | none => none
    else if unit < 32 then none
    else (unquote rest).map fun (s, tail) => (unit :: s, tail)

variable (unit : UInt16) (tail : JsString)

theorem unquote_close : unquote (34 :: tail) = some ([], tail) := by
  rw [unquote.eq_def]
  rfl

theorem unquote_plain (hQuote : unit ≠ 34) (hSlash : unit ≠ 92) (hControl : ¬ unit < 32) :
    unquote (unit :: tail) = (unquote tail).map fun (s, rest) => (unit :: s, rest) := by
  rw [unquote.eq_def]
  simp [hQuote, hSlash, hControl]

theorem unquote_short (letter unit : UInt16) (tail : JsString) (hLetter : letter ≠ 117)
    (hBack : shortUnescape letter = some unit) :
    unquote (92 :: letter :: tail) = (unquote tail).map fun (s, rest) => (unit :: s, rest) := by
  rw [unquote.eq_def]
  simp [hLetter, hBack]

theorem hexValue_hexDigit (n : Nat) (h : n < 16) : hexValue (hexDigit n) = some n := by
  revert h
  revert n
  decide

theorem unquote_unicodeEscape :
    unquote (unicodeEscape unit ++ tail) =
      (unquote tail).map fun (s, rest) => (unit :: s, rest) := by
  have hUnit := unit.toNat_lt
  have h₁ := hexValue_hexDigit (unit.toNat / 4096) (by omega)
  have h₂ := hexValue_hexDigit (unit.toNat / 256 % 16) (by omega)
  have h₃ := hexValue_hexDigit (unit.toNat / 16 % 16) (by omega)
  have h₄ := hexValue_hexDigit (unit.toNat % 16) (by omega)
  have hValue : ((unit.toNat / 4096 * 16 + unit.toNat / 256 % 16) * 16 + unit.toNat / 16 % 16) * 16 +
      unit.toNat % 16 = unit.toNat := by omega
  simp only [unicodeEscape, List.cons_append, List.nil_append]
  rw [unquote]
  simp only [show (92 : UInt16) ≠ 34 by decide, if_false, if_true, h₁, h₂, h₃, h₄, hValue,
    UInt16.ofNat_toNat]

theorem shortUnescape_shortEscape (letter : UInt16) (h : shortEscape unit = some letter) :
    shortUnescape letter = some unit ∧ letter ≠ 117 := by
  unfold shortEscape at h
  split_ifs at h with h₁ h₂ h₃ h₄ h₅ h₆ h₇ <;>
    (obtain rfl := Option.some.inj h; subst_vars; decide)

theorem unquote_escapeUnit :
    unquote (escapeUnit unit ++ tail) =
      (unquote tail).map fun (s, rest) => (unit :: s, rest) := by
  rw [escapeUnit]
  cases hShort : shortEscape unit with
  | some letter =>
    obtain ⟨hBack, hLetter⟩ := shortUnescape_shortEscape unit letter hShort
    exact unquote_short letter unit tail hLetter hBack
  | none =>
    simp only
    split_ifs with hEscape
    · exact unquote_unicodeEscape unit tail
    · have hPlain : unit ≠ 34 ∧ unit ≠ 92 := by
        constructor <;> (rintro rfl; simp [shortEscape] at hShort)
      have hRange : ¬ unit < 32 := fun hLow => hEscape (Or.inl hLow)
      exact unquote_plain unit tail hPlain.1 hPlain.2 hRange

theorem unquote_surrogate (h : isHighSurrogate unit = true ∨ isLowSurrogate unit = true) :
    unquote (unit :: tail) = (unquote tail).map fun (s, rest) => (unit :: s, rest) := by
  have hLarge : 0xD800 ≤ unit.toNat := by
    simp only [isHighSurrogate, isLowSurrogate, Bool.and_eq_true, decide_eq_true_eq,
      UInt16.le_iff_toNat_le] at h
    rcases h with h | h
    · exact h.1
    · exact le_trans (by decide) h.1
  have hQuote : unit ≠ 34 := by
    rintro rfl
    exact absurd hLarge (by decide)
  have hSlash : unit ≠ 92 := by
    rintro rfl
    exact absurd hLarge (by decide)
  have hControl : ¬ unit < 32 := by
    rw [UInt16.lt_iff_toNat_lt]
    simp only [UInt16.reduceToNat]
    omega
  exact unquote_plain unit tail hQuote hSlash hControl

theorem unquote_escapeUnits (s tail : JsString) :
    unquote (escapeUnits s ++ 34 :: tail) = some (s, tail) := by
  induction s using escapeUnits.induct with
  | case1 => exact unquote_close tail
  | case2 unit =>
    rw [escapeUnits, unquote_escapeUnit, unquote_close]
    rfl
  | case3 unit next rest hPair ih =>
    rw [escapeUnits, if_pos hPair, List.cons_append, List.cons_append,
      unquote_surrogate _ _ (.inl hPair.1), unquote_surrogate _ _ (.inr hPair.2), ih]
    rfl
  | case4 unit next rest hPair ih =>
    rw [escapeUnits, if_neg hPair, List.append_assoc, unquote_escapeUnit, ih]
    rfl

end JsonText

namespace JsonValue

def stringify : JsonValue → JsString
  | .null => js "null"
  | .bool b => if b then js "true" else js "false"
  | .num n => n.text
  | .str s => JsonText.quote s
  | .arr items => 91 :: stringifyItems items
  | .obj fields => 123 :: stringifyFields fields
where
  stringifyItems : List JsonValue → JsString
    | [] => [93]
    | [x] => stringify x ++ [93]
    | x :: y :: rest => stringify x ++ 44 :: stringifyItems (y :: rest)
  stringifyFields : List (JsString × JsonValue) → JsString
    | [] => [125]
    | [f] => JsonText.quote f.1 ++ 58 :: (stringify f.2 ++ [125])
    | f :: g :: rest => JsonText.quote f.1 ++ 58 :: (stringify f.2 ++ 44 :: stringifyFields (g :: rest))

end JsonValue

namespace JsonText

/-- White space between the tokens of a JSON text. -/
def isSpace (unit : UInt16) : Bool :=
  unit = 32 || unit = 9 || unit = 10 || unit = 13

def skipSpace (text : JsString) : JsString :=
  text.dropWhile isSpace

mutual

/-- Read one value; returns it and the text after it. -/
def readValue : Nat → JsString → Option (JsonValue × JsString)
  | 0, _ => none
  | fuel + 1, text =>
    let text := skipSpace text
    if text.head? = some 34 then
      (unquote (text.drop 1)).map fun (s, rest) => (.str s, rest)
    else if text.head? = some 91 then
      let rest := skipSpace (text.drop 1)
      if rest.head? = some 93 then some (.arr [], rest.drop 1)
      else (readItems fuel rest).map fun (items, rest) => (.arr items, rest)
    else if text.head? = some 123 then
      let rest := skipSpace (text.drop 1)
      if rest.head? = some 125 then some (.obj [], rest.drop 1)
      else (readFields fuel rest []).map fun (fields, rest) => (.obj fields, rest)
    else if (js "null").isPrefixOf text then some (.null, text.drop 4)
    else if (js "true").isPrefixOf text then some (.bool true, text.drop 4)
    else if (js "false").isPrefixOf text then some (.bool false, text.drop 5)
    else (readNumber text).map fun (n, rest) => (.num n, rest)

/-- Read the elements of a non-empty array up to its closing bracket. -/
def readItems : Nat → JsString → Option (List JsonValue × JsString)
  | 0, _ => none
  | fuel + 1, text =>
    match readValue fuel text with
    | none => none
    | some (value, rest) =>
      let rest := skipSpace rest
      if rest.head? = some 44 then
        (readItems fuel (rest.drop 1)).map fun (items, rest) => (value :: items, rest)
      else if rest.head? = some 93 then some ([value], rest.drop 1)
      else none

/-- Read the properties of a non-empty object up to its closing brace. A key
that occurs again overwrites its property. -/
def readFields : Nat → JsString → Fields → Option (Fields × JsString)
  | 0, _, _ => none
  | fuel + 1, text, fields =>
    let text := skipSpace text
    if text.head? ≠ some 34 then none
    else
      match unquote (text.drop 1) with
      | none => none
      | some (key, rest) =>
        let rest := skipSpace rest
        if rest.head? ≠ some 58 then none
        else
          match readValue fuel (rest.drop 1) with
          | none => none
          | some (value, rest) =>
            let rest := skipSpace rest
            let fields := Fields.define fields key value
            if rest.head? = some 44 then readFields fuel (rest.drop 1) fields
            else if rest.head? = some 125 then some (fields, rest.drop 1)
            else none

end

def parse (text : JsString) : Option JsonValue :=
  match readValue text.length text with
  | some (value, rest) => if skipSpace rest = [] then some value else none
  | none => none

end JsonText

end OctoberHarness
