import OctoberHarness.Json.Number

/-! What `Number(text)` and the other readings of a text as a number give. -/
namespace OctoberHarness.Schema

/-- A ratio of naturals, rounded to the nearest one; ties go to the even one. -/
def roundEven (num den : Nat) : Nat :=
  let floor := num / den
  let rest := num % den
  if den < 2 * rest ∨ (2 * rest = den ∧ floor % 2 = 1) then floor + 1 else floor

/-- `num / den` over a power of a base. -/
def scaled (base num den : Nat) (power : Int) : Nat × Nat :=
  if 0 ≤ power then (num, den * base ^ power.toNat) else (num * base ^ (-power).toNat, den)

/-- The power of two of the last place of the double next to `num / den`. -/
def lastPlace (num den : Nat) : Int :=
  let estimate := (Nat.log2 num : Int) - Nat.log2 den - 52
  let (a, b) := scaled 2 num den estimate
  max (-1074) (if 2 ^ 52 ≤ a / b then estimate else estimate - 1)

/-- The double nearest to `num / den`, as a ratio. -/
def nearestDouble (num den : Nat) : Nat × Nat :=
  let place := lastPlace num den
  let (a, b) := scaled 2 num den place
  let significand := roundEven a b
  if 0 ≤ place then (significand * 2 ^ place.toNat, 1) else (significand, 2 ^ (-place).toNat)

/-- Both ratios have one nearest double. -/
def sameDouble (x y : Nat × Nat) : Bool :=
  (nearestDouble x.1 x.2).1 * (nearestDouble y.1 y.2).2 = (nearestDouble y.1 y.2).1 * (nearestDouble x.1 x.2).2

/-- The shortest decimal, of the powers of ten down from `top`, that rounds to
the double `x`. -/
def shortest (x : Nat × Nat) (top : Int) : Option (Nat × Int) :=
  (List.range 17).findSome? fun count =>
    let power := top - 1 - count
    let (a, b) := scaled 10 x.1 x.2 power
    let near := if b ≤ 2 * (a % b) then [a / b + 1, a / b] else [a / b, a / b + 1]
    let fits := near.find? fun digits =>
      sameDouble x (if 0 ≤ power then (digits * 10 ^ power.toNat, 1) else (digits, 10 ^ (-power).toNat))
    fits.map fun digits => (digits, power)

/-- The number `± digits * 10 ^ exponent` rounds to, if it is finite. -/
def roundDecimal (negative : Bool) (digits : Nat) (exponent : Int) : Option JsNumber :=
  let (num, den) := if 0 ≤ exponent then (digits * 10 ^ exponent.toNat, 1) else (digits, 10 ^ (-exponent).toNat)
  let double := nearestDouble num den
  if digits = 0 ∨ double.1 = 0 then some (JsNumber.ofNat 0)
  else if 2 ^ 1024 * double.2 ≤ double.1 then none
  else
    -- The power of ten above the number: between 5e-324 and 2e308.
    let top := (List.range 640).find? fun i =>
      let (a, b) := scaled 10 double.1 double.2 ((i : Int) - 330)
      a < b
    top.bind fun i => (shortest double ((i : Int) - 330)).map fun made => JsonText.ofDecimal negative made.1 made.2

/-- A digit below the radix. -/
def digitOf (radix : Nat) (unit : UInt16) : Option Nat :=
  let n := unit.toNat
  let value := if 48 ≤ n ∧ n ≤ 57 then n - 48 else if 97 ≤ n ∧ n ≤ 102 then n - 87 else if 65 ≤ n ∧ n ≤ 70 then n - 55 else radix
  if value < radix then some value else none

/-- The digits of a hexadecimal, octal or binary literal. -/
def readRadix (radix : Nat) (digits : JsString) : Option JsNumber :=
  if digits = [] then none
  else (digits.mapM (digitOf radix)).bind fun values => roundDecimal false (values.foldl (fun n d => n * radix + d) 0) 0

/-- The exponent of a decimal literal, to the end of the text. -/
def readPower (text : JsString) : Option Int :=
  match text with
  | [] => some 0
  | letter :: rest =>
    let (negative, digits) := if rest.head? = some 43 then (false, rest.drop 1) else JsonText.readSign rest
    if (letter = 101 ∨ letter = 69) ∧ digits ≠ [] ∧ digits.all JsonText.isDigit then
      some (if negative then -(JsonText.digitsValue digits : Int) else JsonText.digitsValue digits)
    else none

/-- A decimal literal as `Number` reads it: `+5`, `.5` and `5.` too. -/
def readDecimal (text : JsString) : Option JsNumber :=
  let (negative, text) := if text.head? = some 43 then (false, text.drop 1) else JsonText.readSign text
  let (whole, text) := text.span JsonText.isDigit
  let (fraction, text) := JsonText.readFraction text
  if whole ++ fraction = [] then none
  else (readPower text).bind fun power =>
    roundDecimal negative (JsonText.digitsValue (whole ++ fraction)) (power - fraction.length)

/-- `Number(text)`, where it is finite. -/
def toNumber (text : JsString) : Option JsNumber :=
  match trim text with
  | [] => some (JsNumber.ofNat 0)
  | 48 :: 120 :: digits | 48 :: 88 :: digits => readRadix 16 digits
  | 48 :: 111 :: digits | 48 :: 79 :: digits => readRadix 8 digits
  | 48 :: 98 :: digits | 48 :: 66 :: digits => readRadix 2 digits
  | text => readDecimal text

/-- `text.toLowerCase()`, as far as it decides whether the result is one of the
ASCII words it is compared with. -/
def toLowerCase (text : JsString) : JsString :=
  text.map fun unit => if 65 ≤ unit ∧ unit ≤ 90 then unit + 32 else unit

/-- `bigIntOfString`, of the one form that `Number` does not read: `12n`. -/
def bigIntOfString (text : JsString) : Option Int :=
  let (negative, digits) := JsonText.readSign text
  let body := digits.dropLast
  if digits.getLast? = some 110 ∧ body ≠ [] ∧ body.all JsonText.isDigit ∧ (body.head? = some 48 → body = [48]) then
    some (if negative then -(JsonText.digitsValue body : Int) else JsonText.digitsValue body)
  else none

/-- `Number(big)`, for a safe integer. -/
def safeNumber (big : Int) : Option JsNumber :=
  if big.natAbs ≤ 9007199254740991 then some (JsonText.ofDecimal (big < 0) big.natAbs 0) else none

def isInteger (n : JsNumber) : Bool :=
  0 ≤ n.exponent

def trunc (n : JsNumber) : JsNumber :=
  if isInteger n then n
  else JsonText.ofDecimal (n.mantissa < 0) (n.mantissa.natAbs / 10 ^ (-n.exponent).toNat) 0

end OctoberHarness.Schema
