import Mathlib.Tactic
import Mathlib.Data.List.Nodup
import OctoberHarness.Library.OrderedMap

/-! Strict JSON as the repository holds it in memory: plain objects with an
own-property order, dense arrays, finite numbers and UTF-16 strings. -/
namespace OctoberHarness

open OrderedMap

/-- A JavaScript string as its UTF-16 code units. Lone surrogates are allowed,
since slicing a string may produce them. -/
abbrev JsString := List UInt16

instance : LawfulBEq JsString := inferInstance

/-- A string constant of the source. -/
def js (text : String) : JsString :=
  text.toList.map fun c => UInt16.ofNat c.toNat

/-- The white space `trim` takes off. -/
def isBlank (unit : UInt16) : Bool :=
  (9 ≤ unit && unit ≤ 13) || unit = 32 || unit = 160 || unit = 5760 || (8192 ≤ unit && unit ≤ 8202) || unit = 8232 ||
    unit = 8233 || unit = 8239 || unit = 8287 || unit = 12288 || unit = 65279

/-- `String.prototype.trim`. -/
def trim (s : JsString) : JsString :=
  ((s.dropWhile isBlank).reverse.dropWhile isBlank).reverse

def decimalText (n : Nat) : JsString :=
  (Nat.toDigits 10 n).map fun c => UInt16.ofNat c.toNat

/-- A finite JavaScript number in the shortest decimal form that
`Number::toString` prints, `mantissa * 10 ^ exponent`. On finite numbers `===`
is equality of this form: both zeros have the one form `0`. -/
structure JsNumber where
  mantissa : Int
  exponent : Int
  normal : mantissa % 10 ≠ 0 ∨ (mantissa = 0 ∧ exponent = 0)
deriving DecidableEq, Repr

namespace JsNumber

theorem zero_normal : (0 : Int) % 10 ≠ 0 ∨ ((0 : Int) = 0 ∧ (0 : Int) = 0) :=
  .inr ⟨rfl, rfl⟩

/-- Move factors of ten from the mantissa to the exponent. -/
def stripTens : Nat → Nat → Nat → Nat × Nat
  | 0, m, e => (m, e)
  | fuel + 1, m, e => if m % 10 = 0 then stripTens fuel (m / 10) (e + 1) else (m, e)

theorem stripTens_value (fuel m e : Nat) :
    (stripTens fuel m e).1 * 10 ^ (stripTens fuel m e).2 = m * 10 ^ e := by
  induction fuel generalizing m e with
  | zero => rfl
  | succ fuel ih =>
    rw [stripTens]
    split_ifs with hTen
    · rw [ih, pow_succ, Nat.mul_comm (10 ^ e) 10, ← Nat.mul_assoc]
      congr 1
      omega
    · rfl

theorem stripTens_normal (fuel m e : Nat) (hFuel : m ≤ fuel) (hPos : 0 < m) :
    (stripTens fuel m e).1 % 10 ≠ 0 := by
  induction fuel generalizing m e with
  | zero => omega
  | succ fuel ih =>
    rw [stripTens]
    split_ifs with hTen
    · exact ih (m / 10) (e + 1) (by omega) (by omega)
    · exact hTen

/-- The number of an array index, a count or an id. -/
def ofNat (n : Nat) : JsNumber :=
  if h : n = 0 then ⟨0, 0, zero_normal⟩
  else
    ⟨(stripTens n n 0).1, (stripTens n n 0).2, .inl (by
      have hNormal := stripTens_normal n n 0 (Nat.le_refl n) (Nat.pos_of_ne_zero h)
      omega)⟩

/-- The value of a non-negative integer: `Number.isInteger(x) && x >= 0`. -/
def toNat? (x : JsNumber) : Option Nat :=
  if 0 ≤ x.mantissa ∧ 0 ≤ x.exponent then
    some (x.mantissa.toNat * 10 ^ x.exponent.toNat)
  else none

@[simp] theorem toNat?_ofNat (n : Nat) : (ofNat n).toNat? = some n := by
  by_cases h : n = 0
  · subst h
    rfl
  · have hValue := stripTens_value n n 0
    simp only [pow_zero, Nat.mul_one] at hValue
    simp [ofNat, h, toNat?, hValue]

/-- The digits of a positive number with the point after the first `n` of them:
plain notation between `1e-7` and `1e21`, exponent notation outside. -/
def notate (digits : JsString) (n : Int) : JsString :=
  let k : Int := digits.length
  if k ≤ n ∧ n ≤ 21 then digits ++ List.replicate (n - k).toNat 48
  else if 0 < n ∧ n ≤ 21 then digits.take n.toNat ++ 46 :: digits.drop n.toNat
  else if -6 < n ∧ n ≤ 0 then 48 :: 46 :: (List.replicate (-n).toNat 48 ++ digits)
  else
    digits.take 1 ++ ((if digits.length = 1 then [] else 46 :: digits.drop 1) ++
      101 :: (if n - 1 < 0 then 45 else 43) :: decimalText (n - 1).natAbs)

/-- `String(x)`. -/
def text (x : JsNumber) : JsString :=
  let digits := decimalText x.mantissa.natAbs
  (if x.mantissa < 0 then js "-" else []) ++ notate digits (x.exponent + digits.length)

end JsNumber

/-- A strict-JSON value. The fields of an object stand in own-property order. -/
inductive JsonValue where
  | null
  | bool (b : Bool)
  | num (n : JsNumber)
  | str (s : JsString)
  | arr (items : List JsonValue)
  | obj (fields : List (JsString × JsonValue))
deriving Repr, Inhabited

namespace JsonValue

@[elab_as_elim]
theorem induction {motive : JsonValue → Prop} (null : motive .null) (bool : ∀ b, motive (.bool b)) (num : ∀ n, motive (.num n))
    (str : ∀ s, motive (.str s)) (arr : ∀ items, (∀ x ∈ items, motive x) → motive (.arr items))
    (obj : ∀ fields, (∀ f ∈ fields, motive f.2) → motive (.obj fields)) (value : JsonValue) : motive value := by
  refine @JsonValue.rec motive (fun items => ∀ x ∈ items, motive x)
    (fun fields => ∀ f ∈ fields, motive f.2) (fun f => motive f.2)
    null bool num str arr obj ?_ ?_ ?_ ?_ ?_ value
  · simp
  · intro head tail hHead hTail x hx
    rcases List.mem_cons.mp hx with rfl | hx
    · exact hHead
    · exact hTail x hx
  · simp
  · intro head tail hHead hTail f hf
    rcases List.mem_cons.mp hf with rfl | hf
    · exact hHead
    · exact hTail f hf
  · exact fun _ _ h => h

/-- Structural equality, property order included. -/
def beq : JsonValue → JsonValue → Bool
  | .null, .null => true
  | .bool a, .bool b => a == b
  | .num a, .num b => a == b
  | .str a, .str b => a == b
  | .arr xs, .arr ys => beqItems xs ys
  | .obj xs, .obj ys => beqFields xs ys
  | _, _ => false
where
  beqItems : List JsonValue → List JsonValue → Bool
    | [], [] => true
    | x :: xs, y :: ys => beq x y && beqItems xs ys
    | _, _ => false
  beqFields : List (JsString × JsonValue) → List (JsString × JsonValue) → Bool
    | [], [] => true
    | x :: xs, y :: ys => x.1 == y.1 && beq x.2 y.2 && beqFields xs ys
    | _, _ => false

theorem beqItems_eq_true (xs ys : List JsonValue)
    (ih : ∀ x ∈ xs, ∀ y, beq x y = true ↔ x = y) : beq.beqItems xs ys = true ↔ xs = ys := by
  induction xs generalizing ys with
  | nil => cases ys <;> simp [beq.beqItems]
  | cons x xs hTail =>
    cases ys with
    | nil => simp [beq.beqItems]
    | cons y ys =>
      rw [beq.beqItems, Bool.and_eq_true, ih x (by simp) y,
        hTail ys (fun z hz => ih z (by simp [hz])), List.cons.injEq]

theorem beqFields_eq_true (xs ys : List (JsString × JsonValue))
    (ih : ∀ x ∈ xs, ∀ y, beq x.2 y = true ↔ x.2 = y) : beq.beqFields xs ys = true ↔ xs = ys := by
  induction xs generalizing ys with
  | nil => cases ys <;> simp [beq.beqFields]
  | cons x xs hTail =>
    cases ys with
    | nil => simp [beq.beqFields]
    | cons y ys =>
      rw [beq.beqFields, Bool.and_eq_true, Bool.and_eq_true, ih x (by simp) y.2,
        hTail ys (fun z hz => ih z (by simp [hz])), beq_iff_eq, List.cons.injEq, Prod.ext_iff]

theorem beq_eq_true (x y : JsonValue) : beq x y = true ↔ x = y := by
  induction x using JsonValue.induction generalizing y with
  | null => cases y <;> simp [beq]
  | bool b => cases y <;> simp [beq]
  | num n => cases y <;> simp [beq]
  | str s => cases y <;> simp [beq]
  | arr items ih =>
    cases y with
    | arr other => simp [beq, beqItems_eq_true items other ih]
    | _ => simp [beq]
  | obj fields ih =>
    cases y with
    | obj other => simp [beq, beqFields_eq_true fields other ih]
    | _ => simp [beq]

instance : DecidableEq JsonValue := fun x y =>
  decidable_of_iff (beq x y = true) (beq_eq_true x y)

/-- `value !== null && typeof value === "object"`. -/
def isContainer : JsonValue → Bool
  | .arr _ => true
  | .obj _ => true
  | _ => false

end JsonValue

/-- `Boolean(value)`. -/
def truthy : JsonValue → Bool
  | .null => false
  | .bool b => b
  | .num n => n.mantissa ≠ 0
  | .str s => s ≠ []
  | .arr _ => true
  | .obj _ => true

/-! Own properties of plain objects. -/

/-- The own properties of an object, in own-property order. -/
abbrev Fields := List (JsString × JsonValue)

/-- The array index a property name denotes: canonical decimal text below
`2 ^ 32 - 1`. Such keys come first in own-property order. -/
def arrayIndex (key : JsString) : Option Nat :=
  if key.length = 0 ∨ 10 < key.length then none
  else if key = js "0" then some 0
  else
    match key with
    | [] => none
    | first :: rest =>
      if first < 49 ∨ 57 < first then none
      else rest.foldlM (fun index unit =>
        if unit < 48 ∨ 57 < unit then none
        else
          let next := index * 10 + (unit.toNat - 48)
          if 4294967295 ≤ next then none else some next) (first.toNat - 48)

/-- Whether a new property `key` is placed before the existing `other`. -/
def precedes (key other : JsString) : Bool :=
  match arrayIndex key, arrayIndex other with
  | some i, some j => i < j
  | some _, none => true
  | none, _ => false

/-- The own keys of an object: distinct, and none placed before an earlier
one. -/
def OwnKeys (keys : List JsString) : Prop :=
  keys.Nodup ∧ keys.Pairwise fun earlier later => precedes later earlier = false

namespace Fields

def hasOwn (fields : Fields) (key : JsString) : Bool :=
  (fields.lookup key).isSome

def keys (fields : Fields) : List JsString :=
  fields.map Prod.fst

/-- Add a property that is not there yet, at its place in own-property order. -/
def insert (key : JsString) (value : JsonValue) : Fields → Fields
  | [] => [(key, value)]
  | field :: rest =>
    if precedes key field.1 then (key, value) :: field :: rest
    else field :: insert key value rest

/-- `Object.defineProperty` with a plain data descriptor. -/
def define (fields : Fields) (key : JsString) (value : JsonValue) : Fields :=
  if hasOwn fields key then replace key value fields else insert key value fields

def delete (fields : Fields) (key : JsString) : Fields :=
  erase fields key

variable (fields : Fields) (key : JsString) (value : JsonValue) (other : JsString)

theorem lookup_insert (hNew : fields.lookup key = none) :
    (insert key value fields).lookup other =
      if other = key then some value else fields.lookup other := by
  induction fields with
  | nil => rw [insert, lookup_cons]
  | cons field rest ih =>
    rw [lookup_cons] at hNew
    split_ifs at hNew with hField
    rw [insert]
    by_cases hFirst : precedes key field.1 = true
    · rw [if_pos hFirst, lookup_cons]
    · rw [if_neg hFirst, lookup_cons, lookup_cons, ih hNew]
      by_cases hOther : other = key
      · rw [if_pos hOther, hOther, if_neg hField, if_pos rfl]
      · simp [hOther]

theorem lookup_define :
    (define fields key value).lookup other =
      if other = key then some value else fields.lookup other := by
  rw [define]
  by_cases hOwn : hasOwn fields key = true
  · rw [if_pos hOwn, lookup_replace _ _ _ _ (Option.isSome_iff_ne_none.mp hOwn)]
  · rw [if_neg hOwn, lookup_insert _ _ _ _ (Option.not_isSome_iff_eq_none.mp hOwn)]

theorem lookup_delete :
    (delete fields key).lookup other =
      if other = key then none else fields.lookup other :=
  lookup_erase fields key other

theorem insert_last (h : ∀ other ∈ fields.map Prod.fst, precedes key other = false) :
    insert key value fields = fields ++ [(key, value)] := by
  induction fields with
  | nil => rfl
  | cons field rest ih =>
    have hField := h field.1 (by simp)
    rw [insert, hField, ih (fun other hOther => h other (by simp [hOther]))]
    rfl

theorem define_lookup_self {fields : Fields} {key : JsString} {value : JsonValue}
    (h : fields.lookup key = some value) : define fields key value = fields := by
  have hOwn : hasOwn fields key = true := by rw [hasOwn, h]; rfl
  rw [define, if_pos hOwn]
  clear hOwn
  induction fields with
  | nil => simp at h
  | cons field rest ih =>
    rw [lookup_cons] at h
    rw [replace]
    split_ifs at h with hKey
    · obtain rfl := Option.some.inj h
      rw [if_pos hKey.symm, hKey]
    · rw [if_neg (Ne.symm hKey), ih h]

theorem define_last (h : OwnKeys (fields.map Prod.fst ++ [key])) :
    define fields key value = fields ++ [(key, value)] := by
  obtain ⟨hNodup, hOrder⟩ := h
  rw [List.nodup_append] at hNodup
  rw [List.pairwise_append] at hOrder
  have hNew : fields.lookup key = none := by
    rw [lookup_eq_none_iff]
    exact fun hMem => hNodup.2.2 key hMem key (by simp) rfl
  have hOwn : ¬ hasOwn fields key = true := by simp only [hasOwn, hNew]; decide
  rw [define, if_neg hOwn]
  exact insert_last fields key value fun other hOther => hOrder.2.2 other hOther key (by simp)

end Fields
end OctoberHarness
